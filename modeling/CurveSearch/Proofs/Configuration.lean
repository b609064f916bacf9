import CurveSearch.Proofs.Inputs
import CurveSearch.Proofs.Records

/-!
# Configuration files that leave fields out

A configuration file gives numbers to some of the fields, in any order and with other members in
between. What is loaded depends on the numbers alone: they are merged with the defaults, and the
first field of the result that is out of its range is reported. A number that does not fit the type
of its field, and a field that is given twice, make the whole file malformed.
-/

namespace CurveSearch

/-! ## Fields -/

inductive Tolerances.Field where
  | eps
  | zeroEps
  | snapEps
  | maxValue
  | maxIterations
  | tailWindow
  deriving DecidableEq

namespace Tolerances.Field

/-- All fields, in the order in which they are checked. -/
def all : List Field := [eps, zeroEps, snapEps, maxValue, maxIterations, tailWindow]

/-- All fields, in the order in which they are written. -/
def written : List Field := [eps, zeroEps, maxIterations, tailWindow, snapEps, maxValue]

def name : Field → String
  | eps => "eps"
  | zeroEps => "zero_eps"
  | snapEps => "snap_eps"
  | maxValue => "max_value"
  | maxIterations => "max_iterations"
  | tailWindow => "tail_window"

def Value : Field → Type
  | eps | zeroEps | snapEps | maxValue => Float
  | maxIterations | tailWindow => ℕ

def get (tol : Tolerances) : (field : Field) → field.Value
  | eps => tol.eps
  | zeroEps => tol.zeroEps
  | snapEps => tol.snapEps
  | maxValue => tol.maxValue
  | maxIterations => tol.maxIterations
  | tailWindow => tol.tailWindow

def read? : (field : Field) → Json → Option field.Value
  | eps | zeroEps | snapEps | maxValue => Json.toFloat?
  | maxIterations | tailWindow => Json.toNat?

/-- The value of a field after the numerals that are given are merged with the defaults. -/
def merged? (given : Field → Option Json.Numeral) (field : Field) : Option field.Value :=
  match given field with
  | none => some (field.get {})
  | some n => field.read? (.number n)

/-- The values that a field may have. -/
def Allows : (field : Field) → field.Value → Prop
  | eps | zeroEps | snapEps | maxValue => fun (v : Float) ↦ v.isFinite ∧ 0 ≤ v
  | maxIterations => fun (n : ℕ) ↦ 1 ≤ n
  | tailWindow => fun (n : ℕ) ↦ 2 ≤ n

instance : (field : Field) → DecidablePred field.Allows
  | eps | zeroEps | snapEps | maxValue =>
      fun (v : Float) ↦ inferInstanceAs (Decidable (v.isFinite ∧ 0 ≤ v))
  | maxIterations => fun (n : ℕ) ↦ inferInstanceAs (Decidable (1 ≤ n))
  | tailWindow => fun (n : ℕ) ↦ inferInstanceAs (Decidable (2 ≤ n))

def fault (tol : Tolerances) : Field → Configuration.Fault
  | eps => .notNonnegative "eps" tol.eps
  | zeroEps => .notNonnegative "zero_eps" tol.zeroEps
  | snapEps => .notNonnegative "snap_eps" tol.snapEps
  | maxValue => .notNonnegative "max_value" tol.maxValue
  | maxIterations => .noIterations
  | tailWindow => .shortTail

theorem merged?_eq_fieldOr (given : Field → Option Json.Numeral) (field : Field) :
    field.merged? given = fieldOr (field.get {}) field.read? ((given field).map .number) := by
  unfold merged?
  cases given field <;> rfl

theorem mem_all (field : Field) : field ∈ all := by
  cases field <;> decide

theorem mem_written (field : Field) : field ∈ written := by
  cases field <;> decide

theorem map_name_written : (Tolerances.fields {}).map Prod.fst = written.map name := rfl

theorem message_fault (tol : Tolerances) (field : Field) :
    ∃ rest, (field.fault tol).message = "config field `" ++ field.name ++ "` must be " ++ rest := by
  have hnumber (name : String) (v : Float) :
      (Configuration.Fault.notNonnegative name v).message = "config field `" ++ name ++
        "` must be " ++ ("a finite non-negative number, got " ++ Decimal.plainText v) := by
    have hdemand : "` must be a finite non-negative number, got " =
        "` must be " ++ "a finite non-negative number, got " := rfl
    unfold Configuration.Fault.message
    simp only [hdemand, String.append_assoc]
  cases field with
  | maxIterations => exact ⟨"at least 1", rfl⟩
  | tailWindow => exact ⟨"at least 2", rfl⟩
  | _ => exact ⟨_, hnumber _ _⟩

end Tolerances.Field

/-! ## Members of an object -/

namespace Json

def pick? (members : List (String × Json)) (name : String) : Option (Option Json) :=
  match members.filter (·.1 = name) with
  | [] => some none
  | [(_, value)] => some (some value)
  | _ => none

theorem fields?_object (names : List String) (entries : List (List Char × Json)) :
    (object entries).fields? names =
      (object entries).members?.bind fun members ↦ names.mapM (pick? members) := rfl

theorem pick?_of_two_le {members : List (String × Json)} {name : String}
    (h : 2 ≤ (members.filter (·.1 = name)).length) : pick? members name = none := by
  unfold pick?
  split
  · next hnone => simp [hnone] at h
  · next hone => simp [hone] at h
  · rfl

end Json

namespace Tolerances

variable {members : List (String × Json)} {given : Field → Option Json.Numeral}
  {entries : List (List Char × Json)} {tol : Tolerances}

/-- Whether members of an object give numbers to fields, each at most once. Other members do not
matter. -/
def Gives (members : List (String × Json)) (given : Field → Option Json.Numeral) : Prop :=
  ∀ field : Field, members.filter (·.1 = field.name) =
    ((given field).map fun n ↦ (field.name, Json.number n)).toList

/-- Whether tolerances are the defaults but for the numbers that are given. -/
def IsMerge (given : Field → Option Json.Numeral) (tol : Tolerances) : Prop :=
  ∀ field : Field, field.merged? given = some (field.get tol)

theorem Gives.pick?_name (h : Gives members given) (field : Field) :
    Json.pick? members field.name = some ((given field).map Json.number) := by
  unfold Json.pick?
  rw [h field]
  cases given field <;> rfl

theorem ofJson?_eq_none_of_fields? {document : Json}
    (h : document.fields? ((fields {}).map Prod.fst) = none) : ofJson? document = none := by
  unfold ofJson?
  simp only [h, Option.bind_eq_bind, Option.bind_none]

theorem ofJson?_eq_none_of_two_le (hmembers : (Json.object entries).members? = some members)
    {field : Field} (h : 2 ≤ (members.filter (·.1 = field.name)).length) :
    ofJson? (.object entries) = none := by
  refine ofJson?_eq_none_of_fields? ?_
  rw [Json.fields?_object, hmembers, Option.bind_some, Field.map_name_written]
  exact Json.mapM_eq_none (List.mem_map_of_mem field.mem_written) (Json.pick?_of_two_le h)

theorem ofJson?_eq_some_iff (hmembers : (Json.object entries).members? = some members)
    (hgives : Gives members given) : ofJson? (.object entries) = some tol ↔ IsMerge given tol := by
  have hfields : (Json.object entries).fields? ((fields {}).map Prod.fst) =
      some (Field.written.map fun field ↦ (given field).map Json.number) := by
    rw [Json.fields?_object, hmembers, Field.map_name_written, Option.bind_some, List.mapM_map]
    exact Json.mapM_eq_some_map fun field _ ↦ hgives.pick?_name field
  -- Fields are read in the order in which they are written, which is not the order of the checks.
  unfold ofJson?
  simp only [hfields, Field.written, List.map_cons, List.map_nil, Option.bind_eq_bind,
    Option.bind_some]
  rw [IsMerge]
  simp only [Field.merged?_eq_fieldOr, Option.bind_eq_some_iff]
  constructor
  · rintro ⟨eps, heps, zeroEps, hzero, maxIterations, hsteps, tailWindow, htail, snapEps, hsnap,
      maxValue, hmax, ⟨⟩⟩ field
    cases field with
    | eps => exact heps
    | zeroEps => exact hzero
    | snapEps => exact hsnap
    | maxValue => exact hmax
    | maxIterations => exact hsteps
    | tailWindow => exact htail
  · intro h
    exact ⟨_, h .eps, _, h .zeroEps, _, h .maxIterations, _, h .tailWindow, _, h .snapEps, _,
      h .maxValue, rfl⟩

theorem IsMerge.eq {tol' : Tolerances} (h : IsMerge given tol) (h' : IsMerge given tol') :
    tol = tol' := by
  have hget (field : Field) : field.get tol = field.get tol' :=
    Option.some.inj ((h field).symm.trans (h' field))
  obtain ⟨eps, zeroEps, maxIterations, tailWindow, snapEps, maxValue⟩ := tol
  obtain ⟨eps', zeroEps', maxIterations', tailWindow', snapEps', maxValue'⟩ := tol'
  obtain rfl : eps = eps' := hget .eps
  obtain rfl : zeroEps = zeroEps' := hget .zeroEps
  obtain rfl : snapEps = snapEps' := hget .snapEps
  obtain rfl : maxValue = maxValue' := hget .maxValue
  obtain rfl : maxIterations = maxIterations' := hget .maxIterations
  obtain rfl : tailWindow = tailWindow' := hget .tailWindow
  rfl

theorem exists_isMerge (h : ∀ field : Field, (field.merged? given).isSome) :
    ∃ tol, IsMerge given tol := by
  choose value hvalue using fun field ↦ Option.isSome_iff_exists.mp (h field)
  refine ⟨⟨value .eps, value .zeroEps, value .maxIterations, value .tailWindow, value .snapEps,
    value .maxValue⟩, fun field ↦ (hvalue field).trans ?_⟩
  cases field <;> rfl

end Tolerances

namespace Configuration

open Tolerances (Field)

/-- The fault that is reported is the one of the first field with a value that is not allowed. -/
theorem fault?_eq (tol : Tolerances) :
    fault? tol =
      (Field.all.find? fun field ↦ ¬ field.Allows (field.get tol)).map (·.fault tol) := by
  have hnumber (v : Float) : isNonnegative v = decide (v.isFinite ∧ 0 ≤ v) := by
    simp [isNonnegative]
  unfold fault?
  simp only [hnumber, Field.all, List.find?_cons, List.find?_nil, Field.Allows, Field.get]
  by_cases heps : tol.eps.isFinite ∧ 0 ≤ tol.eps
  case neg => simp [heps, Field.fault]
  by_cases hzero : tol.zeroEps.isFinite ∧ 0 ≤ tol.zeroEps
  case neg => simp [heps, hzero, Field.fault]
  by_cases hsnap : tol.snapEps.isFinite ∧ 0 ≤ tol.snapEps
  case neg => simp [heps, hzero, hsnap, Field.fault]
  by_cases hmax : tol.maxValue.isFinite ∧ 0 ≤ tol.maxValue
  case neg => simp [heps, hzero, hsnap, hmax, Field.fault]
  simp only [heps, hzero, hsnap, hmax]
  by_cases hsteps : tol.maxIterations = 0
  case pos => simp [hsteps, Field.fault]
  by_cases htail : tol.tailWindow < 2
  case pos => simp [hsteps, htail, Field.fault]
  simp [hsteps, htail, not_lt.mp htail]

variable {read? : String → Option String} {path text : String}
  {entries : List (List Char × Json)} {members : List (String × Json)}
  {given : Field → Option Json.Numeral} {tol : Tolerances}

theorem load_of_spells (hfile : read? path = some text)
    (hspells : Json.Spells (.object entries) text.toList) :
    (Tolerances.ofJson? (.object entries) = none →
      load read? (some path) = .error (.malformed path)) ∧
    ∀ tol, Tolerances.ofJson? (.object entries) = some tol →
      (fault? tol = none → load read? (some path) = .ok tol) ∧
      ∀ fault, fault? tol = some fault → load read? (some path) = .error (.invalid fault) := by
  have hparse := Json.parse?_of_spells hspells
  rw [String.ofList_toList] at hparse
  unfold load
  simp only [hfile, hparse, Option.bind_some]
  refine ⟨fun hnone ↦ ?_, fun tol htol ↦ ⟨fun hfault ↦ ?_, fun fault hfault ↦ ?_⟩⟩
  · simp only [hnone]
  · simp only [htol, hfault]
  · simp only [htol, hfault]

theorem find?_all_eq_none :
    (Field.all.find? fun field ↦ ¬ field.Allows (field.get tol)) = none ↔
      ∀ field : Field, field.Allows (field.get tol) := by
  simp [List.find?_eq_none, Field.mem_all]

def holding (text : String) : String → Option String := fun _ ↦ some text

theorem spells_digit (negative : Bool) {c : Char} (hc : c.isDigit) :
    Json.Spells (.number ⟨negative, [c], [], none⟩) (if negative then ['-', c] else [c]) := by
  have hwhole : Json.IsWhole [c] := by
    refine ⟨⟨by simp, by simp [hc]⟩, ?_⟩
    rintro rest ⟨⟩
    rfl
  refine .number ⟨hwhole, fun h ↦ absurd rfl h, fun _ _ h ↦ nomatch h⟩ ⟨[], .none, ?_⟩
  cases negative <;> rfl

theorem spells_singleton {name text : List Char} {value : Json} (hname : Json.IsBody name)
    (hvalue : Json.Spells value text) :
    Json.Spells (.object [(name, value)]) ('{' :: (Json.quote name ++ ':' :: text) ++ ['}']) := by
  let entry : Json.Entry := ⟨[], name, [], value, text⟩
  have hlaid : ∀ e ∈ [entry], e.IsLaidOut :=
    List.forall_mem_singleton.mpr ⟨Json.isGap_nil, hname, Json.isGap_nil⟩
  have hspells := Json.Spells.object hlaid (List.forall_mem_singleton.mpr hvalue) Json.isGap_nil
  simpa [entry, Json.Entry.member, Json.Entry.spelled, Json.joined] using hspells

/-- The numeral `1e999`. -/
def huge : Json.Numeral := ⟨false, ['1'], [], some (false, ['9', '9', '9'])⟩

theorem isStandard_huge : huge.IsStandard := by
  refine ⟨⟨⟨by simp [huge], by simp [huge]⟩, fun rest h ↦ nomatch h⟩, fun h ↦ absurd rfl h, ?_⟩
  rintro negative ds ⟨⟩
  exact ⟨by simp, by simp⟩

/-- What is loaded from an object depends on the numbers that its members give to the fields, and
not on their order or on other members. The numbers are merged with the defaults; what results is
loaded if all its fields have values that are allowed, and otherwise the first field that has not is
named. A number that is none for its field and a field that is given twice are malformed, and so is
a name that spells no text. -/
theorem load_merge (hfile : read? path = some text)
    (hspells : Json.Spells (.object entries) text.toList) :
    ((Json.object entries).members? = none → load read? (some path) = .error (.malformed path)) ∧
    ∀ members, (Json.object entries).members? = some members →
      (∀ field : Field, 2 ≤ (members.filter (·.1 = field.name)).length →
        load read? (some path) = .error (.malformed path)) ∧
      ∀ given, Tolerances.Gives members given →
        ((∃ field : Field, field.merged? given = none) →
          load read? (some path) = .error (.malformed path)) ∧
        ((∀ field : Field, (field.merged? given).isSome) →
          ∃ tol, Tolerances.IsMerge given tol ∧
            (load read? (some path) = .ok tol ↔ ∀ field : Field, field.Allows (field.get tol)) ∧
            ∀ field, Field.all.find? (fun field ↦ ¬ field.Allows (field.get tol)) = some field →
              load read? (some path) = .error (.invalid (field.fault tol)) ∧
              ∃ rest, (field.fault tol).message =
                "config field `" ++ field.name ++ "` must be " ++ rest) := by
  obtain ⟨hmalformed, hchecked⟩ := load_of_spells hfile hspells
  refine ⟨fun hnone ↦ hmalformed ?_, fun members hmembers ↦ ⟨fun field htwo ↦ hmalformed ?_,
    fun given hgives ↦ ⟨fun ⟨field, hfield⟩ ↦ hmalformed ?_, fun hsome ↦ ?_⟩⟩⟩
  · refine Tolerances.ofJson?_eq_none_of_fields? ?_
    rw [Json.fields?_object, hnone, Option.bind_none]
  · exact Tolerances.ofJson?_eq_none_of_two_le hmembers htwo
  · -- Tolerances that were read would be a merge, and so have a value for the field.
    refine Option.eq_none_iff_forall_not_mem.mpr fun tol htol ↦ ?_
    have hmerge := (Tolerances.ofJson?_eq_some_iff hmembers hgives).mp htol
    exact nomatch hfield.symm.trans (hmerge field)
  · obtain ⟨tol, hmerge⟩ := Tolerances.exists_isMerge hsome
    obtain ⟨hok, herror⟩ :=
      hchecked tol ((Tolerances.ofJson?_eq_some_iff hmembers hgives).mpr hmerge)
    have hfirst {field : Field}
        (h : (Field.all.find? fun field ↦ ¬ field.Allows (field.get tol)) = some field) :
        load read? (some path) = .error (.invalid (field.fault tol)) :=
      herror _ (by rw [fault?_eq, h, Option.map_some])
    refine ⟨tol, hmerge, ⟨fun hload ↦ ?_, fun hallowed ↦ ?_⟩, fun field h ↦
      ⟨hfirst h, field.message_fault tol⟩⟩
    · refine find?_all_eq_none.mp (Option.eq_none_iff_forall_not_mem.mpr fun field h ↦ ?_)
      exact nomatch hload.symm.trans (hfirst h)
    · exact hok (by rw [fault?_eq, find?_all_eq_none.mpr hallowed, Option.map_none])

/-- Of two fields that are given values out of their ranges the one that is checked first is named,
although the other one comes first in the file. -/
theorem load_merge_first_checked :
    load (holding "\x7b\"tail_window\":1, \"note\":null,\"max_value\" : -1\x7d") (some "cfg.json") =
      .error (.invalid (.notNonnegative "max_value" (-1))) := by
  have hspace : Json.IsGap [' '] := by
    intro c hc
    rw [List.mem_singleton.mp hc]
    rfl
  let entries : List Json.Entry :=
    [⟨[], "tail_window".toList, [], .number ⟨false, ['1'], [], none⟩, ['1']⟩,
      ⟨[' '], "note".toList, [], .null, "null".toList⟩,
      ⟨[], "max_value".toList, [' '], .number ⟨true, ['1'], [], none⟩, [' ', '-', '1']⟩]
  have hlaid : ∀ e ∈ entries, e.IsLaidOut := by
    simp only [entries, List.forall_mem_cons]
    exact ⟨⟨Json.isGap_nil, Json.isBody_escape "tail_window".toList, Json.isGap_nil⟩,
      ⟨hspace, Json.isBody_escape "note".toList, Json.isGap_nil⟩,
      ⟨Json.isGap_nil, Json.isBody_escape "max_value".toList, hspace⟩, fun _ h ↦ nomatch h⟩
  have hvalues : ∀ e ∈ entries, Json.Spells e.value e.text := by
    simp only [entries, List.forall_mem_cons]
    exact ⟨spells_digit false rfl, .null, (spells_digit true rfl).padded hspace Json.isGap_nil,
      fun _ h ↦ nomatch h⟩
  have hspells : Json.Spells (.object (entries.map Json.Entry.member))
      "\x7b\"tail_window\":1, \"note\":null,\"max_value\" : -1\x7d".toList :=
    .object hlaid hvalues Json.isGap_nil
  let members : List (String × Json) := [("tail_window", .number ⟨false, ['1'], [], none⟩),
    ("note", .null), ("max_value", .number ⟨true, ['1'], [], none⟩)]
  let given : Field → Option Json.Numeral
    | .tailWindow => some ⟨false, ['1'], [], none⟩
    | .maxValue => some ⟨true, ['1'], [], none⟩
    | _ => none
  have hgives : Tolerances.Gives members given := by
    intro field
    cases field <;> rfl
  have hvalue : Json.toFloat? (.number ⟨true, ['1'], [], none⟩) = some (-1) := by decide +kernel
  have hmerge : Tolerances.IsMerge given { tailWindow := 1, maxValue := -1 } := by
    intro field
    cases field with
    | maxValue => exact hvalue
    | _ => rfl
  have hfile : holding "\x7b\"tail_window\":1, \"note\":null,\"max_value\" : -1\x7d" "cfg.json" =
    some "\x7b\"tail_window\":1, \"note\":null,\"max_value\" : -1\x7d" := rfl
  obtain ⟨tol, htol, -, hfirst⟩ := (((load_merge hfile hspells).2 members rfl).2 given hgives).2
    fun field ↦ Option.isSome_iff_exists.mpr ⟨_, hmerge field⟩
  obtain rfl := htol.eq hmerge
  exact (hfirst .maxValue (by decide +kernel)).1

/-- A number that no double can hold is not merged, and no field is named. A name that is ignored
still has to spell a text, which a lone surrogate does not. -/
theorem load_huge_and_surrogate :
    (Json.Spells (.object [("eps".toList, .number huge)]) "\x7b\"eps\":1e999\x7d".toList ∧
      (Json.object [("eps".toList, .number huge)]).members? = some [("eps", .number huge)] ∧
      Tolerances.Gives [("eps", .number huge)]
        (fun field ↦ if field = .eps then some huge else none) ∧
      load (holding "\x7b\"eps\":1e999\x7d") (some "cfg.json") = .error (.malformed "cfg.json")) ∧
    Json.Spells (.object [("\\ud800".toList, .null)]) "\x7b\"\\ud800\":null\x7d".toList ∧
      load (holding "\x7b\"\\ud800\":null\x7d") (some "cfg.json") =
        .error (.malformed "cfg.json") := by
  have hnumber : Json.Spells (.number huge) "1e999".toList :=
    .number isStandard_huge ⟨['e', '9', '9', '9'], .unsigned (.inl rfl) _, by decide⟩
  have hhuge : Json.Spells (.object [("eps".toList, .number huge)])
      "\x7b\"eps\":1e999\x7d".toList := spells_singleton (Json.isBody_escape "eps".toList) hnumber
  have hsurrogate : Json.Spells (.object [("\\ud800".toList, .null)])
      "\x7b\"\\ud800\":null\x7d".toList := spells_singleton (.unit rfl .nil) .null
  have hhugeFile : holding "\x7b\"eps\":1e999\x7d" "cfg.json" =
    some "\x7b\"eps\":1e999\x7d" := rfl
  have hsurrogateFile : holding "\x7b\"\\ud800\":null\x7d" "cfg.json" =
    some "\x7b\"\\ud800\":null\x7d" := rfl
  refine ⟨⟨hhuge, rfl, fun field ↦ by cases field <;> rfl, ?_⟩, hsurrogate, ?_⟩
  · exact (load_of_spells hhugeFile hhuge).1 (Option.isNone_iff_eq_none.mp (by decide +kernel))
  · exact (load_of_spells hsurrogateFile hsurrogate).1
      (Option.isNone_iff_eq_none.mp (by decide +kernel))

end Configuration

end CurveSearch
