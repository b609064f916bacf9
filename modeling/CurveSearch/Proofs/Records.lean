import CurveSearch.Proofs.Binary64.Opposite
import CurveSearch.Proofs.Json.Layout
import CurveSearch.Proofs.Json.Reading
import CurveSearch.Proofs.Origin
import CurveSearch.Records

/-!
# Records that are read back

A record is read back field by field from each of its texts. A point is a record of two numbers, of
which neither may be null: the points that searches find are read back as far as their numbers are,
and the other results of searches are not read back at all, since they have no abscissa.
-/

namespace CurveSearch

open Detector

namespace Json

variable {α β : Type}

/-! ## Fields -/

theorem mapM_eq_some_map {l : List α} {read : α → Option β} {g : α → β}
    (h : ∀ a ∈ l, read a = some (g a)) : l.mapM read = some (l.map g) := by
  induction l with
  | nil => rfl
  | cons a l ih =>
      rw [List.mapM_cons, h a List.mem_cons_self, ih fun b hb ↦ h b (List.mem_cons_of_mem a hb)]
      rfl

theorem mapM_eq_none {l : List α} {read : α → Option β} {a : α} (ha : a ∈ l)
    (hread : read a = none) : l.mapM read = none := by
  induction l with
  | nil => exact nomatch ha
  | cons b l ih =>
      rw [List.mapM_cons]
      rcases List.mem_cons.mp ha with rfl | ha
      · rw [hread]
        rfl
      · rw [ih ha]
        cases read b <;> rfl

theorem members?_record (fields : List (String × Json)) :
    (record fields).members? = some fields := by
  unfold record members?
  simp only
  rw [List.mapM_map, mapM_eq_some_map (g := id), List.map_id]
  intro field _
  simp [unescape?_escape]

theorem filter_eq_singleton {fields : List (String × Json)} (h : (fields.map Prod.fst).Nodup)
    {field : String × Json} (hfield : field ∈ fields) :
    fields.filter (·.1 = field.1) = [field] := by
  induction fields with
  | nil => exact nomatch hfield
  | cons first fields ih =>
      rw [List.map_cons, List.nodup_cons] at h
      rcases List.mem_cons.mp hfield with rfl | hmem
      · rw [List.filter_cons_of_pos (by simp), List.filter_eq_nil_iff.mpr]
        intro other hother heq
        exact h.1 (of_decide_eq_true heq ▸ List.mem_map_of_mem hother)
      · rw [List.filter_cons_of_neg, ih h.2 hmem]
        intro heq
        exact h.1 (of_decide_eq_true heq ▸ List.mem_map_of_mem hmem)

theorem fields?_record {fields : List (String × Json)} (h : (fields.map Prod.fst).Nodup) :
    (record fields).fields? (fields.map Prod.fst) = some (fields.map fun field ↦ some field.2) := by
  have hmembers := members?_record fields
  unfold record at hmembers ⊢
  unfold fields?
  simp only [hmembers, Option.bind_eq_bind, Option.bind_some]
  rw [List.mapM_map, mapM_eq_some_map]
  intro field hfield
  simp only [Function.comp_apply]
  rw [filter_eq_singleton h hfield]

end Json

/-! ## Points -/

namespace Point

variable {p : Point}

/-- Whether two points are equal. A NaN is equal to a NaN here. -/
def Matches (p q : Point) : Prop :=
  (p.abscissa == q.abscissa ∨ p.abscissa.isNaN ∧ q.abscissa.isNaN) ∧
    (p.value == q.value ∨ p.value.isNaN ∧ q.value.isNaN)

/-- Whether a text is read as a point that matches a given one. -/
def IsReadFrom (p : Point) (text : String) : Prop :=
  ∃ q, (Json.parse? text).bind ofJson? = some q ∧ q.Matches p

theorem isStandard_toJson (p : Point) : Json.IsStandard p.toJson := by
  apply Json.isStandard_record
  intro field hfield
  simp only [List.mem_cons, List.not_mem_nil, or_false] at hfield
  rcases hfield with rfl | rfl
  · exact Json.isStandard_ofFloat _
  · exact Json.isStandard_ofFloat _

theorem ofJson?_toJson (p : Point) :
    ofJson? p.toJson = (Json.ofFloat p.abscissa).toFloat?.bind fun abscissa ↦
      (Json.ofFloat p.value).toFloat?.map fun value ↦ ⟨abscissa, value⟩ := by
  let fields : List (String × Json) :=
    [("abscissa", .ofFloat p.abscissa), ("value", .ofFloat p.value)]
  have hnames : (fields.map Prod.fst).Nodup := by simp [fields]
  have hfields := Json.fields?_record hnames
  unfold ofJson? toJson
  simp only [fields, List.map_cons, List.map_nil] at hfields
  rw [hfields]
  simp only [Option.bind_eq_bind, Option.bind_some]
  cases (Json.ofFloat p.abscissa).toFloat? <;> cases (Json.ofFloat p.value).toFloat? <;> rfl

theorem keeps_of_matches {x v : Float} (hread : (Json.ofFloat x).toFloat? = some v)
    (h : v == x ∨ v.isNaN ∧ x.isNaN) : Json.Keeps x := by
  refine ⟨v, hread, h.resolve_right fun hnan ↦ ?_⟩
  have hinfinite : ¬ x.isFinite := by
    intro hfinite
    rw [Grid.isNaN_of_isFinite hfinite] at hnan
    exact Bool.false_ne_true hnan.2
  rw [Json.toFloat?_ofFloat_of_not_isFinite hinfinite] at hread
  exact nomatch hread

theorem isReadFrom_iff_keeps {text : String} (h : Json.parse? text = some p.toJson) :
    p.IsReadFrom text ↔ Json.Keeps p.abscissa ∧ Json.Keeps p.value := by
  unfold IsReadFrom
  rw [h, Option.bind_some, ofJson?_toJson]
  constructor
  · rintro ⟨q, hq, habscissa, hvalue⟩
    obtain ⟨a, ha, hq⟩ := Option.bind_eq_some_iff.mp hq
    obtain ⟨b, hb, rfl⟩ := Option.map_eq_some_iff.mp hq
    exact ⟨keeps_of_matches ha habscissa, keeps_of_matches hb hvalue⟩
  · rintro ⟨⟨a, ha, habscissa⟩, b, hb, hvalue⟩
    exact ⟨⟨a, b⟩, by rw [ha, hb]; rfl, .inl habscissa, .inl hvalue⟩

theorem ofJson?_of_not_isFound {text : String} (h : Json.parse? text = some p.toJson)
    (hmiss : ¬ p.isFound) : (Json.parse? text).bind ofJson? = none := by
  rw [h, Option.bind_some, ofJson?_toJson, Json.toFloat?_ofFloat_of_not_isFinite hmiss]
  rfl

end Point

theorem Target.isFinite_value_of_found {target : Target} {f : Graph} {tol : Tolerances} {w : Window}
    (h : (target.next f tol w).isFound) : (target.next f tol w).value.isFinite := by
  cases target with
  | root =>
      obtain ⟨-, p, -, -, heq⟩ := Search.root_found h
      change (Search.root f w tol).value.isFinite
      rw [heq]
      exact Grid.isFinite_zero
  | extremum kind =>
      obtain ⟨-, hscan⟩ := Search.extremum_found h
      obtain ⟨i, state, hreached, -, hvisit⟩ := Scan.scan_found hscan
      obtain ⟨-, -, -, haccept⟩ := hreached.found_candidate (turnMemory kind) hvisit
      exact (Bool.and_eq_true_iff.mp haccept).1
  | intersection other =>
      obtain ⟨hroot, y, hy, heq⟩ := Search.intersection_found h
      obtain ⟨d, hd, -⟩ := exists_value_of_root_found hroot
      obtain ⟨a, b, ha, -, rfl, hfinite⟩ := Graph.difference_eq_some.mp hd
      change (Search.intersection f other w tol).value.isFinite
      rw [heq]
      rw [hy, Option.some.injEq] at ha
      rw [Grid.sub_eq_add_neg] at hfinite
      exact ha ▸ (Grid.isFinite_of_add hfinite).1

/-- What a search returns is read back from either of its texts if and only if it is a point that was
found and both of its numbers, which are finite then, are kept. From the texts of a result without a
location no point is read at all. -/
theorem Target.isReadFrom_iff {target : Target} {f : Graph} {tol : Tolerances} {w : Window}
    {p : Point} (hp : p = target.next f tol w) :
    ∀ text ∈ [p.toJson.compactText, p.toJson.prettyText],
      (p.IsReadFrom text ↔ p.isFound ∧ Json.Keeps p.abscissa ∧ Json.Keeps p.value) ∧
      (p.isFound → p.value.isFinite) ∧
      (¬ p.isFound → (Json.parse? text).bind Point.ofJson? = none) := by
  intro text htext
  have hparse : Json.parse? text = some p.toJson := by
    obtain ⟨hcompact, hpretty⟩ := p.isStandard_toJson.parse?_text
    simp only [List.mem_cons, List.not_mem_nil, or_false] at htext
    rcases htext with rfl | rfl
    · exact hcompact
    · exact hpretty
  refine ⟨?_, fun hfound ↦ ?_, Point.ofJson?_of_not_isFound hparse⟩
  · rw [Point.isReadFrom_iff_keeps hparse]
    refine ⟨fun h ↦ ⟨?_, h⟩, And.right⟩
    by_contra hmiss
    obtain ⟨v, hv, -⟩ := h.1
    exact nomatch (Json.toFloat?_ofFloat_of_not_isFinite hmiss).symm.trans hv
  · rw [hp] at hfound ⊢
    exact isFinite_value_of_found hfound

theorem Json.keeps_zero : Keeps 0 := by
  refine keeps_of_isExact (n := ⟨false, ['0'], ['0'], none⟩) (by decide +kernel) ⟨?_, ?_, ?_⟩
  · decide
  · decide
  · decide

theorem Search.root_const_one_besideOrigin :
    root (Graph.const 1) .besideOrigin {} = .unlocated 0 := by
  have hstart : Scan.Reached crossing (Graph.const 1) .besideOrigin {} 1 (.start crossing {}) :=
    .start
  have hend : ¬ Window.besideOrigin.Visits 2 := fun h ↦ h.2 (by decide +kernel)
  rcases Scan.visit_first (Graph.const 1) .besideOrigin {} (Window.besideOrigin.cursor 1)
    hstart.three_le_capacity rfl with ⟨next, hvisit⟩ | ⟨y, hy, hexact, -⟩
  · have hnext := hstart.step Window.visits_besideOrigin hvisit
    unfold root
    rw [if_pos (by decide +kernel), hnext.scan_eq, Scan.run_of_not_visits hend]
  · obtain rfl : (1 : Float) = y := Option.some.inj hy
    exact absurd hexact (by decide +kernel)

/-- The root of the zero graph is read back, and the answer that the graph at one has no root is
not: its abscissa is null. -/
theorem Target.isReadFrom_root_and_not_miss :
    ((⟨0, 0⟩ : Point) = Target.root.next (Graph.const 0) {} .besideOrigin ∧
      (⟨0, 0⟩ : Point).IsReadFrom (⟨0, 0⟩ : Point).toJson.compactText) ∧
    Point.unlocated 0 = Target.root.next (Graph.const 1) {} .besideOrigin ∧
      (Point.unlocated 0).toJson.compactText = "\x7b\"abscissa\":null,\"value\":0.0\x7d" ∧
      (Json.parse? (Point.unlocated 0).toJson.compactText).bind Point.ofJson? = none := by
  have hroot : (⟨0, 0⟩ : Point) = Target.root.next (Graph.const 0) {} .besideOrigin :=
    Search.root_const_besideOrigin.symm
  have hmiss : Point.unlocated 0 = Target.root.next (Graph.const 1) {} .besideOrigin :=
    Search.root_const_one_besideOrigin.symm
  refine ⟨⟨hroot, ?_⟩, hmiss, by decide +kernel, ?_⟩
  · have hread := isReadFrom_iff hroot _ List.mem_cons_self
    exact hread.1.mpr ⟨rfl, Json.keeps_zero, Json.keeps_zero⟩
  · have hread := isReadFrom_iff hmiss _ List.mem_cons_self
    exact hread.2.2 (Point.not_isFound_unlocated 0)

end CurveSearch
