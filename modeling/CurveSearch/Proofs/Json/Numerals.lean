import CurveSearch.Json.Parsing
import CurveSearch.Proofs.Decimal.RoundTrip

/-!
# Numerals in documents

Each text of a numeral with the standard form is read back to the numeral, if only what follows it
is not a part of a numeral. All numerals that are written have this form: a shortest decimal has no
leading zeros, and its positional digits have one only if they are a single digit.
-/

namespace CurveSearch.Json

open Decimal

/-! ## The form of a numeral -/

/-- A run of digits, at least one. -/
structure IsDigits (ds : List Char) : Prop where
  ne_nil : ds ≠ []
  isDigit : ∀ c ∈ ds, c.isDigit = true

/-- The digits before a point: the single digit zero, or digits that start with another one. -/
structure IsWhole (ds : List Char) : Prop extends IsDigits ds where
  eq_zero : ∀ rest, ds = '0' :: rest → rest = []

/-- The standard form of a numeral. -/
structure Numeral.IsStandard (n : Numeral) : Prop where
  whole : IsWhole n.whole
  fraction : n.fraction ≠ [] → IsDigits n.fraction
  exponent : ∀ negative ds, n.exponent = some (negative, ds) → IsDigits ds

def EndsNumeral (rest : List Char) : Prop :=
  ∀ c ∈ rest.head?, c.isDigit = false ∧ c ≠ '.' ∧ c ≠ 'e' ∧ c ≠ 'E'

variable {ds rest : List Char} {n : Numeral}

/-! ## Reading -/

theorem IsDigits.digits?_append (h : IsDigits ds) (hrest : ∀ c ∈ rest.head?, c.isDigit = false) :
    digits? (ds ++ rest) = some (ds, rest) := by
  have htake : rest.takeWhile Char.isDigit = [] ∧ rest.dropWhile Char.isDigit = rest := by
    cases rest with
    | nil => exact ⟨rfl, rfl⟩
    | cons c cs =>
        have hc := hrest c rfl
        simp [hc]
  unfold digits?
  rw [List.takeWhile_append_of_pos h.isDigit, List.dropWhile_append_of_pos h.isDigit, htake.1,
    htake.2, List.append_nil]
  cases ds with
  | nil => exact absurd rfl h.ne_nil
  | cons c cs => rfl

theorem IsWhole.wholeDigits?_append (h : IsWhole ds)
    (hrest : ∀ c ∈ rest.head?, c.isDigit = false) :
    wholeDigits? (ds ++ rest) = some (ds, rest) := by
  unfold wholeDigits?
  rw [h.toIsDigits.digits?_append hrest]
  simp only [Option.bind_eq_bind, Option.bind_some]
  split
  · next c cs => exact nomatch h.eq_zero _ rfl
  · rfl

def fractionText (fraction : List Char) : List Char :=
  if fraction = [] then [] else '.' :: fraction

theorem fractionDigits?_append (h : ds ≠ [] → IsDigits ds)
    (hrest : ∀ c ∈ rest.head?, c.isDigit = false ∧ c ≠ '.') :
    fractionDigits? (fractionText ds ++ rest) = some (ds, rest) := by
  unfold fractionText
  split_ifs with hds
  · rw [List.nil_append, hds, fractionDigits?]
    rintro cs rfl
    exact (hrest '.' rfl).2 rfl
  · exact (h hds).digits?_append fun c hc ↦ (hrest c hc).1

/-- The texts of an exponent: one of two marks, a sign that may be left out if it is a plus, and the
digits. -/
inductive SpellsExponent : Option (Bool × List Char) → List Char → Prop
  | none : SpellsExponent none []
  | signed {mark : Char} (hmark : mark = 'e' ∨ mark = 'E') (negative : Bool) (ds : List Char) :
      SpellsExponent (some (negative, ds)) (mark :: (if negative then '-' else '+') :: ds)
  | unsigned {mark : Char} (hmark : mark = 'e' ∨ mark = 'E') (ds : List Char) :
      SpellsExponent (some (false, ds)) (mark :: ds)

theorem exponent?_none (hrest : ∀ c ∈ rest.head?, c ≠ 'e' ∧ c ≠ 'E') :
    exponent? rest = some (none, rest) := by
  cases rest with
  | nil => rfl
  | cons c cs =>
      obtain ⟨he, hE⟩ := hrest c rfl
      simp [exponent?, he, hE]

theorem exponent?_unsigned {mark : Char} (hmark : mark = 'e' ∨ mark = 'E') (h : IsDigits ds)
    (hrest : ∀ c ∈ rest.head?, c.isDigit = false) :
    exponent? (mark :: (ds ++ rest)) = some (some (false, ds), rest) := by
  have hread := h.digits?_append hrest
  obtain ⟨d, tail, rfl⟩ := List.exists_cons_of_ne_nil h.ne_nil
  have hd := h.isDigit d List.mem_cons_self
  have hminus : d ≠ '-' := by
    rintro rfl
    exact absurd hd (by decide)
  have hplus : d ≠ '+' := by
    rintro rfl
    exact absurd hd (by decide)
  rw [List.cons_append] at hread ⊢
  simp [exponent?, hmark, hread, hminus, hplus]

theorem SpellsExponent.exponent?_append {exponent : Option (Bool × List Char)} {text : List Char}
    (hspells : SpellsExponent exponent text)
    (h : ∀ negative ds, exponent = some (negative, ds) → IsDigits ds)
    (hrest : ∀ c ∈ rest.head?, c.isDigit = false ∧ c ≠ 'e' ∧ c ≠ 'E') :
    exponent? (text ++ rest) = some (exponent, rest) := by
  cases hspells with
  | none => exact exponent?_none fun c hc ↦ (hrest c hc).2
  | signed hmark negative ds =>
      have hds := (h negative ds rfl).digits?_append fun c hc ↦ (hrest c hc).1
      cases negative <;> simp [exponent?, hmark, hds]
  | unsigned hmark ds => exact exponent?_unsigned hmark (h false ds rfl) fun c hc ↦ (hrest c hc).1

/-- The texts of a numeral, which differ in the exponent only. -/
def Numeral.IsSpelledBy (n : Numeral) (text : List Char) : Prop :=
  ∃ exponent, SpellsExponent n.exponent exponent ∧
    text = (if n.negative then ['-'] else []) ++ (n.whole ++ (fractionText n.fraction ++ exponent))

theorem Numeral.isSpelledBy_print (n : Numeral) : n.IsSpelledBy n.print := by
  obtain ⟨negative, whole, fraction, exponent⟩ := n
  cases exponent with
  | none => exact ⟨[], .none, by simp [print, fractionText]⟩
  | some e => exact ⟨_, .signed (.inl rfl) e.1 e.2, by simp [print, fractionText]⟩

theorem head?_fractionText_append (fraction : List Char) {P : Char → Prop} (hpoint : P '.')
    (h : ∀ c ∈ rest.head?, P c) : ∀ c ∈ (fractionText fraction ++ rest).head?, P c := by
  unfold fractionText
  split_ifs
  · exact h
  · rintro c ⟨⟩
    exact hpoint

theorem SpellsExponent.head?_append {exponent : Option (Bool × List Char)} {text : List Char}
    (hspells : SpellsExponent exponent text) {P : Char → Prop} (hmark : P 'e' ∧ P 'E')
    (h : ∀ c ∈ rest.head?, P c) : ∀ c ∈ (text ++ rest).head?, P c := by
  have hmarks {mark : Char} (hm : mark = 'e' ∨ mark = 'E') : P mark := by
    rcases hm with rfl | rfl
    · exact hmark.1
    · exact hmark.2
  cases hspells with
  | none => exact h
  | signed hm negative ds =>
      rintro c ⟨⟩
      exact hmarks hm
  | unsigned hm ds =>
      rintro c ⟨⟩
      exact hmarks hm

theorem IsWhole.exists_cons (h : IsWhole ds) : ∃ c cs, ds = c :: cs ∧ c.isDigit = true := by
  obtain ⟨c, cs, rfl⟩ := List.exists_cons_of_ne_nil h.ne_nil
  exact ⟨c, cs, rfl, h.isDigit c List.mem_cons_self⟩

/-- A numeral in the standard form is read up to its end, however it is spelled. -/
theorem Numeral.IsStandard.numeral?_append (h : n.IsStandard) {text : List Char}
    (hspelled : n.IsSpelledBy text) (hrest : EndsNumeral rest) :
    numeral? (text ++ rest) = some (n, rest) := by
  obtain ⟨exponentText, hspells, rfl⟩ := hspelled
  have hexponent := hspells.exponent?_append h.exponent fun c hc ↦
    ⟨(hrest c hc).1, (hrest c hc).2.2⟩
  have hfraction := fractionDigits?_append h.fraction
    (hspells.head?_append (P := fun c ↦ c.isDigit = false ∧ c ≠ '.') (by decide) fun c hc ↦
      ⟨(hrest c hc).1, (hrest c hc).2.1⟩)
  have hwhole := h.whole.wholeDigits?_append
    (head?_fractionText_append n.fraction rfl
      (hspells.head?_append (P := fun c ↦ c.isDigit = false) (by decide) fun c hc ↦ (hrest c hc).1))
  obtain ⟨c, cs, hcons, hdigit⟩ := h.whole.exists_cons
  have hc : c ≠ '-' := by
    rintro rfl
    exact absurd hdigit (by decide)
  obtain ⟨negative, whole, fraction, exponent⟩ := n
  rw [List.append_assoc, List.append_assoc, List.append_assoc]
  unfold numeral?
  cases negative with
  | true => simp [hwhole, hfraction, hexponent]
  | false =>
      simp only at hcons hwhole hfraction hexponent
      simp only [Bool.false_eq_true, if_false, List.nil_append]
      rw [hcons, List.cons_append] at hwhole ⊢
      simp [hc, hwhole, hfraction, hexponent]

/-! ## Numerals that are written -/

theorem head_toDigits_ne_zero {k : ℕ} (hk : 0 < k) {c : Char} {cs : List Char}
    (h : Nat.toDigits 10 k = c :: cs) : c ≠ '0' := by
  induction k using Nat.strong_induction_on generalizing c cs with
  | _ k ih =>
      rw [Nat.toDigits_eq_if (by norm_num)] at h
      split_ifs at h with hlt
      · rw [List.cons.injEq] at h
        rw [← h.1]
        interval_cases k <;> decide
      · obtain ⟨d, ds, hds⟩ := List.exists_cons_of_ne_nil (Nat.toDigits_ne_nil (n := k / 10) (b := 10))
        rw [hds, List.cons_append, List.cons.injEq] at h
        rw [← h.1]
        exact ih (k / 10) (by omega) (by omega) hds

theorem isDigits_toDigits (k : ℕ) : IsDigits (Nat.toDigits 10 k) :=
  ⟨Nat.toDigits_ne_nil, fun _ hc ↦ Nat.isDigit_of_mem_toDigits (by norm_num) le_rfl hc⟩

theorem isWhole_toDigits (k : ℕ) : IsWhole (Nat.toDigits 10 k) := by
  refine ⟨isDigits_toDigits k, fun rest hrest ↦ ?_⟩
  rcases Nat.eq_zero_or_pos k with rfl | hk
  · rw [Nat.toDigits_zero, List.cons.injEq] at hrest
    exact hrest.2.symm
  · exact absurd rfl (head_toDigits_ne_zero hk hrest)

theorem isWhole_positional {d : Decimal} (hzero : d.coefficient = 0 → d.exponent = 0) :
    IsWhole d.positional.1 := by
  have hpos := isPositional_positional d
  refine ⟨⟨hpos.whole_ne_nil, fun c hc ↦ hpos.isDigit c (List.mem_append_left _ hc)⟩, ?_⟩
  intro rest hrest
  have hwhole : IsWhole d.digits := isWhole_toDigits d.coefficient
  obtain ⟨c, cs, hcons, -⟩ := hwhole.exists_cons
  unfold positional at hrest
  simp only at hrest
  split_ifs at hrest with hexp hplaces
  · -- The zeros that follow the digits are none if the digits are zero.
    simp only at hrest
    rw [hcons, List.cons_append, List.cons.injEq] at hrest
    obtain ⟨rfl, hrest⟩ := hrest
    have hcoefficient : d.coefficient = 0 := by
      by_contra hne
      exact head_toDigits_ne_zero (Nat.pos_of_ne_zero hne) hcons rfl
    rw [hwhole.eq_zero cs hcons, hzero hcoefficient] at hrest
    exact hrest.symm
  · rw [List.splitAt_eq] at hrest
    obtain ⟨k, hk⟩ : ∃ k, d.digits.length - (-d.exponent).toNat = k + 1 :=
      ⟨d.digits.length - (-d.exponent).toNat - 1, by omega⟩
    simp only at hrest
    rw [hk, hcons, List.take_succ_cons, List.cons.injEq] at hrest
    obtain ⟨rfl, -⟩ := hrest
    rw [hcons, hwhole.eq_zero cs hcons, List.length_singleton] at hplaces
    omega
  · exact (List.cons.inj hrest).2.symm

theorem isStandard_ofDecimal {d : Decimal} (negative : Bool)
    (hzero : d.coefficient = 0 → d.exponent = 0) : (Numeral.ofDecimal negative d).IsStandard := by
  have hpos := isPositional_positional d
  unfold Numeral.ofDecimal
  simp only
  split_ifs with hfirst hfraction
  · exact ⟨isWhole_positional hzero, fun _ ↦ ⟨by simp, by simp⟩, fun _ _ h ↦ nomatch h⟩
  · refine ⟨isWhole_positional hzero, fun _ ↦ ⟨hfraction, ?_⟩, fun _ _ h ↦ nomatch h⟩
    exact fun c hc ↦ hpos.isDigit c (List.mem_append_right _ hc)
  · obtain ⟨c, cs, hcons⟩ := List.exists_cons_of_ne_nil (digits_ne_nil d)
    have hdigit : ∀ x ∈ c :: cs, x.isDigit = true := fun x hx ↦
      isDigit_of_mem_digits (hcons ▸ hx)
    refine ⟨⟨⟨?_, ?_⟩, ?_⟩, fun hne ↦ ⟨hne, ?_⟩, ?_⟩
    · simp [hcons]
    · exact fun x hx ↦ hdigit x (hcons ▸ List.mem_of_mem_take hx)
    · intro rest hrest
      rw [hcons] at hrest
      simp only [List.take_succ_cons, List.take_zero, List.cons.injEq] at hrest
      exact hrest.2.symm
    · exact fun x hx ↦ hdigit x (hcons ▸ List.mem_of_mem_drop hx)
    · rintro negative' ds ⟨⟩
      exact isDigits_toDigits _

theorem exponent_shortest_of_zero {tie : Tie} {m : ℕ} {q : ℤ}
    (h : (shortest tie m q).coefficient = 0) : (shortest tie m q).exponent = 0 := by
  rcases Nat.eq_zero_or_pos m with rfl | hm
  · rw [shortest_zero]
  · have hpos := (Names.of_shortest tie hm q).pos hm
    rw [h, Nat.cast_zero, zero_mul] at hpos
    exact absurd hpos (lt_irrefl _)

theorem isStandard_of_ofFloat? {x : Float} (h : Numeral.ofFloat? x = some n) : n.IsStandard := by
  unfold Numeral.ofFloat? at h
  split at h
  · obtain rfl := Option.some.inj h
    exact isStandard_ofDecimal _ exponent_shortest_of_zero
  · exact nomatch h

end CurveSearch.Json
