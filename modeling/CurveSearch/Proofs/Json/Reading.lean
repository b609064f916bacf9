import CurveSearch.Proofs.Json.Numerals

/-!
# Numbers that survive

A double is written with digits that name it, but reading them is not always exact: the digits are
converted to a double, and that is multiplied or divided by a power of ten. If both of these are
exact there is one rounding only, and it gives back the double that was written.
-/

namespace CurveSearch.Json

open Grid Decimal Binary64

/-! ## What a numeral stands for -/

namespace Numeral

def coefficient (n : Numeral) : ℕ := ofDigits (n.whole ++ n.fraction)

def exponentValue (n : Numeral) : ℤ :=
  match n.exponent with
  | none => 0
  | some (negative, ds) => if negative then -ofDigits ds else ofDigits ds

def power (n : Numeral) : ℤ := n.exponentValue - n.fraction.length

def value (n : Numeral) : ℚ := n.coefficient * 10 ^ n.power

/-- Whether the digits and the power of ten are doubles. -/
structure IsExact (n : Numeral) : Prop where
  coefficient_lt : n.coefficient < 2 ^ 53
  exponentValue_lt : |n.exponentValue| < 2 ^ 31
  power_le : |n.power| ≤ 22

end Numeral

/-- Whether the double that is read for a written one equals it. -/
def Keeps (x : Float) : Prop := ∃ v, (ofFloat x).toFloat? = some v ∧ v == x

variable {n : Numeral} {x : Float} {e : ℤ}

/-! ## Reading -/

theorem gather_of_lt (cs : List Char) :
    ∀ {k : ℕ}, 10 ^ cs.length * k + ofDigits cs < 2 ^ 64 →
      Numeral.gather k cs = (10 ^ cs.length * k + ofDigits cs, []) := by
  induction cs with
  | nil =>
      intro k _
      rw [Numeral.gather]
      simp [ofDigits]
  | cons c cs ih =>
      intro k hlt
      have hdigits : ofDigits (c :: cs) = 10 ^ cs.length * ofDigits [c] + ofDigits cs :=
        ofDigits_append [c] cs
      have hnext : 10 ^ (c :: cs).length * k + ofDigits (c :: cs) =
          10 ^ cs.length * (10 * k + ofDigits [c]) + ofDigits cs := by
        rw [hdigits, List.length_cons, pow_succ]
        ring
      rw [hnext] at hlt ⊢
      have hpow : 0 < 10 ^ cs.length := Nat.pow_pos (by norm_num)
      have hsize : 10 * k + ofDigits [c] < UInt64.size :=
        (Nat.le_mul_of_pos_left _ hpow).trans_lt ((Nat.le_add_right _ _).trans_lt hlt)
      rw [Numeral.gather, if_pos hsize, ih hlt]

theorem Numeral.IsExact.significand_eq (h : n.IsExact) :
    n.significand = (n.coefficient, -(n.fraction.length : ℤ)) := by
  have hlt : 10 ^ n.fraction.length * ofDigits n.whole + ofDigits n.fraction < 2 ^ 64 := by
    rw [← ofDigits_append]
    exact h.coefficient_lt.trans (by norm_num)
  have hpow : 0 < 10 ^ n.fraction.length := Nat.pow_pos (by norm_num)
  have hwhole : 10 ^ n.whole.length * 0 + ofDigits n.whole < 2 ^ 64 := by
    rw [mul_zero, zero_add]
    exact (Nat.le_mul_of_pos_left _ hpow).trans_lt ((Nat.le_add_right _ _).trans_lt hlt)
  unfold Numeral.significand
  rw [gather_of_lt n.whole hwhole, mul_zero, zero_add]
  simp only
  rw [gather_of_lt n.fraction hlt, ← ofDigits_append]
  simp [Numeral.coefficient]

theorem isInf_of_isFinite (h : x.isFinite) : x.isInf = false := by
  unfold Float.isFinite Float.Model.isFinite at h
  unfold Float.isInf Float.Model.isInf
  cases hu : x.toModel.unpack with
  | infinity s =>
      rw [hu] at h
      exact nomatch h
  | _ => rfl

def isPower (k : ℕ) : Shape → Bool
  | .finite false m q => m * Nat.pow 2 q.toNat == Nat.pow 10 k * Nat.pow 2 (-q).toNat
  | _ => false

theorem exists_of_isPower {k : ℕ} {s : Shape} (h : isPower k s) :
    ∃ m q, s = .finite false m q ∧
      m * Nat.pow 2 q.toNat = Nat.pow 10 k * Nat.pow 2 (-q).toNat := by
  cases s with
  | finite negative m q =>
      cases negative with
      | false => exact ⟨m, q, rfl, eq_of_beq h⟩
      | true => exact nomatch h
  | nan => exact nomatch h
  | infinite negative => exact nomatch h

theorem isPower_ofScientific : ∀ k < 23, isPower k (shape (Float.ofScientific 1 false k)) := by
  decide +kernel

theorem position_ofScientific {k : ℕ} (hk : k ≤ 22) :
    (Float.ofScientific 1 false k).isFinite ∧ position (Float.ofScientific 1 false k) = 10 ^ k := by
  obtain ⟨m, q, hshape, hpower⟩ := exists_of_isPower (isPower_ofScientific k (by omega))
  have hfinite : (Float.ofScientific 1 false k).isFinite := by
    by_contra hinfinite
    exact shape_ne_finite hinfinite _ _ _ hshape
  obtain ⟨negative, m', q', hshape', hposition⟩ := shape_of_isFinite hfinite
  rw [hshape, Shape.finite.injEq] at hshape'
  obtain ⟨rfl, rfl, rfl⟩ := hshape'
  refine ⟨hfinite, hposition.trans ?_⟩
  have hvalue : shapeValue false m q = m * 2 ^ q := rfl
  simp only [Nat.pow_eq] at hpower
  rw [hvalue, mul_two_zpow_eq_div, hpower]
  push_cast
  exact mul_div_cancel_right₀ _ (by positivity)

theorem abs_nearest_le_two_pow {q : ℚ} {k : ℕ} (hk : k < 1024) (h : |q| ≤ 2 ^ k) :
    |nearest q| ≤ 2 ^ k := by
  have hgrid := onGrid_two_pow_nat k
  have hpos : (0 : ℚ) < 2 ^ k := by positivity
  have hle : |(2 : ℚ) ^ k| ≤ limit := by
    rw [abs_of_pos hpos]
    exact (two_pow_lt_limit hk).le
  obtain ⟨hlow, hhigh⟩ := abs_le.mp h
  exact abs_le.mpr ⟨le_nearest_of_le hgrid.neg ((abs_neg _).trans_le hle) hlow,
    nearest_le_of_le hgrid hle hhigh⟩

/-- A small power of ten is one factor, and the product is rounded once. -/
theorem scale?_of_abs_le (hx : x.isFinite) (hlt : |position x| ≤ 2 ^ 53) (he : |e| ≤ 22) :
    ∃ v, Numeral.scale? x e = some v ∧ IsNearest v (position x * 10 ^ e) := by
  obtain ⟨hlow, hhigh⟩ := abs_le.mp he
  rcases le_or_gt 0 e with hnonneg | hneg
  · obtain ⟨k, rfl⟩ := Int.eq_ofNat_of_zero_le hnonneg
    have hk : k ≤ 22 := by omega
    obtain ⟨hpower, hposition⟩ := position_ofScientific hk
    have hproduct := isNearest_mul hx hpower
    rw [hposition] at hproduct
    have hbound : |position x * 10 ^ k| ≤ 2 ^ 127 := by
      rw [abs_mul, abs_of_pos (by positivity : (0 : ℚ) < 10 ^ k)]
      calc |position x| * 10 ^ k ≤ 2 ^ 53 * 10 ^ 22 :=
            mul_le_mul hlt (pow_le_pow_right₀ (by norm_num) hk) (by positivity) (by positivity)
        _ ≤ 2 ^ 127 := by norm_num
    have hfinite : (x * Float.ofScientific 1 false k).isFinite := by
      rw [isFinite_iff, hproduct.position_eq]
      exact ⟨hproduct.isNaN_eq,
        (abs_nearest_le_two_pow (by norm_num) hbound).trans_lt (two_pow_lt_limit (by norm_num))⟩
    refine ⟨_, ?_, by rwa [zpow_natCast]⟩
    rw [Numeral.scale?, if_neg (by omega), if_pos hnonneg]
    simp only [Int.toNat_natCast]
    rw [isInf_of_isFinite hfinite]
    rfl
  · obtain ⟨k, hk⟩ : ∃ k : ℕ, -e = k := Int.eq_ofNat_of_zero_le (by omega)
    obtain ⟨hpower, hposition⟩ := position_ofScientific (k := k) (by omega)
    have hne : position (Float.ofScientific 1 false k) ≠ 0 := by
      rw [hposition]
      positivity
    have hquotient := isNearest_div hx hpower hne
    refine ⟨x / Float.ofScientific 1 false k, ?_, ?_⟩
    · rw [Numeral.scale?, if_neg (by omega), if_neg (by omega), if_pos (by omega), hk]
      rfl
    · rwa [hposition, div_eq_mul_inv, ← zpow_natCast, ← zpow_neg, ← hk, neg_neg] at hquotient

theorem position_toFloat {k : ℕ} (hk : k < 2 ^ 53) :
    (UInt64.ofNat k).toFloat.isFinite ∧ position (UInt64.ofNat k).toFloat = k := by
  have hnearest := isNearest_toFloat (UInt64.ofNat k)
  rw [UInt64.toNat_ofNat_of_lt' (hk.trans (by norm_num))] at hnearest
  have hle : |(k : ℚ)| < limit := by
    rw [Nat.abs_cast]
    exact lt_trans (by exact_mod_cast hk) (two_pow_lt_limit (k := 53) (by norm_num))
  have hposition : position (UInt64.ofNat k).toFloat = k := by
    rw [hnearest.position_eq]
    exact nearest_eq_self (onGrid_natCast hk.le) hle.le
  exact ⟨isFinite_iff.mpr ⟨hnearest.isNaN_eq, hposition ▸ hle⟩, hposition⟩

/-- The exponent is not too large to be added to the power that the digits count. -/
theorem Numeral.IsExact.toFloat?_of_scale? (h : n.IsExact) {v : Float}
    (hscale : Numeral.scale? (UInt64.ofNat n.coefficient).toFloat n.power = some v) :
    n.toFloat? = some (if n.negative then -v else v) := by
  have hexponent := h.exponentValue_lt
  unfold Numeral.toFloat?
  rw [h.significand_eq]
  simp only
  unfold Numeral.power Numeral.exponentValue at hscale
  unfold Numeral.exponentValue at hexponent
  split
  · next hnone =>
      rw [hnone] at hscale
      simp only [zero_sub] at hscale
      rw [hscale]
      rfl
  · next negative ds hsome =>
      rw [hsome] at hscale hexponent
      have habs : |if negative then -(ofDigits ds : ℤ) else ofDigits ds| = ofDigits ds := by
        cases negative <;> simp
      have hsmall : ofDigits ds < Nat.pow 2 31 := by
        rw [Nat.pow_eq]
        exact_mod_cast habs.symm.trans_lt hexponent
      rw [if_pos hsmall]
      cases negative with
      | true =>
          simp only [if_true] at hscale ⊢
          rw [neg_sub_comm] at hscale
          rw [hscale]
          rfl
      | false =>
          simp only [Bool.false_eq_true, if_false] at hscale ⊢
          rw [neg_add_eq_sub, hscale]
          rfl

/-- A numeral of exact parts reads as the double nearest to the number it stands for. -/
theorem Numeral.IsExact.toFloat?_eq (h : n.IsExact) :
    ∃ v, n.toFloat? = some v ∧ v.isNaN = false ∧
      position v = if n.negative then -nearest n.value else nearest n.value := by
  obtain ⟨hfinite, hposition⟩ := position_toFloat h.coefficient_lt
  have hle : |position (UInt64.ofNat n.coefficient).toFloat| ≤ 2 ^ 53 := by
    rw [hposition, Nat.abs_cast]
    exact_mod_cast h.coefficient_lt.le
  obtain ⟨v, hscale, hnearest⟩ := scale?_of_abs_le hfinite hle h.power_le
  rw [hposition] at hnearest
  refine ⟨_, h.toFloat?_of_scale? hscale, ?_⟩
  cases n.negative with
  | true =>
      simp only [if_true]
      refine ⟨(isNaN_neg v).trans hnearest.isNaN_eq, ?_⟩
      exact (position_neg v).trans (congrArg Neg.neg hnearest.position_eq)
  | false => exact ⟨hnearest.isNaN_eq, hnearest.position_eq⟩

/-! ## Doubles that are read back -/

theorem value_ofDecimal (negative : Bool) (d : Decimal) :
    (Numeral.ofDecimal negative d).value = d.coefficient * 10 ^ d.exponent := by
  have hpos := isPositional_positional d
  unfold Numeral.ofDecimal
  simp only
  split_ifs with hfirst hfraction
  · have hvalue := hpos.value_eq
    rw [hfraction] at hvalue
    simp only [List.append_nil, List.length_nil, Nat.cast_zero, neg_zero, zpow_zero, mul_one]
      at hvalue
    have hzero : ofDigits ['0'] = 0 := rfl
    simp only [Numeral.value, Numeral.coefficient, Numeral.power, Numeral.exponentValue,
      ofDigits_append, hzero, List.length_singleton]
    rw [← hvalue]
    push_cast
    norm_num
    ring
  · simpa [Numeral.value, Numeral.coefficient, Numeral.power, Numeral.exponentValue] using
      hpos.value_eq
  · have hlength : 0 < d.digits.length := List.length_pos_of_ne_nil (digits_ne_nil d)
    have hpower : (Numeral.mk negative (d.digits.take 1) (d.digits.drop 1)
        (some (d.leading < 0, Nat.toDigits 10 d.leading.natAbs))).power = d.exponent := by
      have hdigits : ofDigits (Nat.toDigits 10 d.leading.natAbs) = d.leading.natAbs :=
        ofDigits_digits ⟨d.leading.natAbs, 0⟩
      simp only [Numeral.power, Numeral.exponentValue, hdigits, List.length_drop]
      have hleading : d.leading = d.exponent + d.digits.length - 1 := rfl
      split_ifs with hneg
      · simp only [decide_eq_true_eq] at hneg
        omega
      · simp only [decide_eq_true_eq] at hneg
        omega
    rw [Numeral.value, hpower, Numeral.coefficient]
    simp only [List.take_append_drop, ofDigits_digits]

theorem saturate_mul_two_zpow {m : ℕ} {q : ℤ} {negative : Bool}
    (h : |shapeValue negative m q| < limit) : saturate (m * 2 ^ q) = m * 2 ^ q := by
  unfold shapeValue at h
  rw [abs_signed] at h
  exact saturate_of_abs_le h.le

theorem nearest_value_of_ofFloat? (h : Numeral.ofFloat? x = some n) :
    x.isFinite ∧ position x = if n.negative then -nearest n.value else nearest n.value := by
  have hfinite : x.isFinite := by
    by_contra hinfinite
    unfold Numeral.ofFloat? at h
    split at h
    · next hshape => exact shape_ne_finite hinfinite _ _ _ hshape
    · exact nomatch h
  obtain ⟨negative, m, q, hshape, hposition⟩ := shape_of_isFinite hfinite
  have hlt := abs_position_lt hfinite
  refine ⟨hfinite, ?_⟩
  unfold Numeral.ofFloat? at h
  rw [hshape] at h
  obtain rfl := Option.some.inj h
  have hbits := (magnitude_lt_iff x).mp hfinite
  have hfields : negative = isSignMinus x ∧ m = significand (magnitude x) ∧
      q = Binary64.exponent (magnitude x) := by
    unfold shape at hshape
    simp only at hshape
    rw [if_pos hbits, Shape.finite.injEq] at hshape
    exact ⟨hshape.1.symm, hshape.2.1.symm, hshape.2.2.symm⟩
  have hround : nearest (Numeral.ofDecimal negative (shortest .toEven m q)).value = m * 2 ^ q := by
    rw [value_ofDecimal]
    rcases Nat.eq_zero_or_pos m with rfl | hm
    · rw [shortest_zero]
      simp
    · have hnames := Names.of_shortest .toEven hm q
      rw [Grid.nearest, hnames.round_eq hm (hfields.2.1 ▸ significand_lt _)
        (hfields.2.2 ▸ neg_1074_le_exponent _)
        (by rw [hfields.2.1, hfields.2.2]; exact exponent_eq_or_le_significand _)]
      exact saturate_mul_two_zpow (hposition ▸ hlt)
  have hsign : (Numeral.ofDecimal negative (shortest .toEven m q)).negative = negative := by
    unfold Numeral.ofDecimal
    simp only
    split_ifs <;> rfl
  rw [hround, hsign, hposition]
  cases negative <;> rfl

theorem keeps_of_isExact (h : Numeral.ofFloat? x = some n) (hexact : n.IsExact) : Keeps x := by
  obtain ⟨v, hread, hnan, hposition⟩ := hexact.toFloat?_eq
  obtain ⟨hfinite, heq⟩ := nearest_value_of_ofFloat? h
  refine ⟨v, ?_, beq_iff.mpr ⟨hnan, isNaN_of_isFinite hfinite, hposition.trans heq.symm⟩⟩
  unfold ofFloat
  rw [h]
  exact hread

/-- What is not finite is written as null, which no number is read from. -/
theorem toFloat?_ofFloat_of_not_isFinite (h : ¬ x.isFinite) : (ofFloat x).toFloat? = none := by
  unfold ofFloat
  split
  · next n hn => exact absurd (nearest_value_of_ofFloat? hn).1 h
  · rfl

end CurveSearch.Json
