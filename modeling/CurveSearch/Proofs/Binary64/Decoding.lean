import CurveSearch.Proofs.Binary64.Monotone

/-!
# Reading a double off its bits

The sixty-four bits of a finite double give its sign, its significand and its exponent, and what is
read off them is the position of the double on the rational line. Its floor and its ceiling, which
are computed from these numbers, are therefore the ones of the position.
-/

namespace CurveSearch.Grid

open Float.Model Float.Model.UnpackedFloat Binary64

/-! ## Fields -/

theorem toNat_unpackExponent (b : BitVec 64) :
    (@unpackExponent .binary64 b).toNat = b.toNat / 2 ^ 52 % 2 ^ 11 := by
  change (b.extractLsb 62 52).toNat = _
  rw [BitVec.extractLsb_toNat, Nat.shiftRight_eq_div_pow]

theorem toNat_unpackMantissa (b : BitVec 64) :
    (@unpackMantissa .binary64 b).toNat = b.toNat % 2 ^ 52 := by
  change (b.extractLsb 51 0).toNat = _
  rw [BitVec.extractLsb_toNat, Nat.shiftRight_zero]

theorem ofBitVec_unpackSign (b : BitVec 64) :
    Sign.ofBitVec (@unpackSign .binary64 b) =
      if 2 ^ 63 ≤ b.toNat then .negative else .positive := by
  have hsign : (@unpackSign .binary64 b).toNat = b.toNat / 2 ^ 63 % 2 := by
    change (b.extractLsb 63 63).toNat = _
    rw [BitVec.extractLsb_toNat, Nat.shiftRight_eq_div_pow]
  have hb := b.isLt
  unfold Sign.ofBitVec
  simp only [← BitVec.toNat_inj, hsign, BitVec.toNat_ofNat]
  split_ifs <;> first | rfl | omega

def shapeValue (negative : Bool) (m : ℕ) (q : ℤ) : ℚ :=
  signed (if negative then .negative else .positive) (m * 2 ^ q)

theorem unpackExponent_eq_full (b : BitVec 64) :
    @unpackExponent .binary64 b = -1#_ ↔ b.toNat / 2 ^ 52 % 2 ^ 11 = 2047 := by
  rw [← BitVec.toNat_inj, toNat_unpackExponent]
  rfl

/-- The exponent field of a finite double is not full. -/
theorem isFinite_unpack_iff (b : BitVec 64) :
    (unpack .binary64 b).isFinite = true ↔ b.toNat / 2 ^ 52 % 2 ^ 11 ≠ 2047 := by
  rw [ne_eq, ← unpackExponent_eq_full]
  unfold UnpackedFloat.unpack
  simp only
  split_ifs with hinf
  · exact iff_of_false Bool.false_ne_true (not_not.mpr hinf)
  · exact iff_of_false Bool.false_ne_true (not_not.mpr hinf)
  all_goals exact iff_of_true rfl hinf

/-- The exponent field of a finite double selects between the subnormal and the normal reading of
its significand. -/
theorem value_unpack {b : BitVec 64} (h : (unpack .binary64 b).isFinite = true) :
    value (unpack .binary64 b) = shapeValue (decide (2 ^ 63 ≤ b.toNat))
      (if b.toNat / 2 ^ 52 % 2 ^ 11 = 0 then b.toNat % 2 ^ 52 else b.toNat % 2 ^ 52 + 2 ^ 52)
      ((max 1 (b.toNat / 2 ^ 52 % 2 ^ 11) : ℕ) - 1075) := by
  have hsign : Sign.ofBitVec (@unpackSign .binary64 b) =
      if decide (2 ^ 63 ≤ b.toNat) = true then .negative else .positive := by
    simpa only [decide_eq_true_eq] using ofBitVec_unpackSign b
  have hinf : @unpackExponent .binary64 b ≠ -1#_ := by
    rw [ne_eq, unpackExponent_eq_full]
    exact (isFinite_unpack_iff b).mp h
  have hzero : @unpackExponent .binary64 b = 0#_ ↔
      (@unpackExponent .binary64 b).toNat = 0 := by
    rw [← BitVec.toNat_inj]
    rfl
  rw [shapeValue, ← hsign, ← toNat_unpackExponent, ← toNat_unpackMantissa]
  unfold UnpackedFloat.unpack
  simp only
  rw [if_neg hinf]
  by_cases hsub : @unpackExponent .binary64 b = 0#_
  · have hnat := hzero.mp hsub
    rw [if_pos hsub, if_pos hnat, hnat]
    split_ifs with hm
    · rw [hm]
      simp [value]
    · rfl
  · have hnat := mt hzero.mpr hsub
    rw [if_neg hsub, if_neg hnat, value, toNat_implicit_append,
      max_eq_right (by omega : 1 ≤ (@unpackExponent .binary64 b).toNat), add_comm]
    rfl

theorem magnitude_fields (x : Float) :
    magnitude x / 2 ^ 52 = x.toModel.toBits.toBitVec.toNat / 2 ^ 52 % 2 ^ 11 ∧
      magnitude x % 2 ^ 52 = x.toModel.toBits.toBitVec.toNat % 2 ^ 52 := by
  have hbits : x.toBits.toNat = x.toModel.toBits.toBitVec.toNat := rfl
  unfold magnitude
  rw [hbits, Nat.pow_eq]
  omega

theorem magnitude_lt_iff (x : Float) : x.isFinite = true ↔ magnitude x < infinityBits := by
  refine (isFinite_unpack_iff _).trans ?_
  rw [← (magnitude_fields x).1]
  have hlt : magnitude x < 2 ^ 63 := Nat.mod_lt _ (by norm_num)
  unfold infinityBits
  omega

theorem shape_of_isFinite {x : Float} (h : x.isFinite) :
    ∃ negative m q, shape x = .finite negative m q ∧ position x = shapeValue negative m q := by
  have hvalue := value_unpack (b := x.toModel.toBits.toBitVec) h
  obtain ⟨hfield, hmant⟩ := magnitude_fields x
  rw [← hfield, ← hmant] at hvalue
  have hfinite := (magnitude_lt_iff x).mp h
  have hsignificand : (if magnitude x / 2 ^ 52 = 0 then magnitude x % 2 ^ 52
      else magnitude x % 2 ^ 52 + 2 ^ 52) = significand (magnitude x) := by
    unfold significand
    rw [Nat.pow_eq]
    split_ifs <;> omega
  rw [hsignificand] at hvalue
  refine ⟨isSignMinus x, significand (magnitude x), exponent (magnitude x), ?_, ?_⟩
  · unfold shape
    simp only
    rw [if_pos hfinite]
  · exact (position_eq_value h).trans hvalue

theorem shape_ne_finite {x : Float} (h : ¬ x.isFinite) (negative : Bool) (m : ℕ) (q : ℤ) :
    shape x ≠ .finite negative m q := by
  rw [magnitude_lt_iff] at h
  unfold shape
  simp only
  rw [if_neg h]
  split_ifs <;> exact Shape.noConfusion

/-! ## Floor and ceiling -/

theorem mul_two_zpow_eq_div (m : ℕ) (q : ℤ) :
    (m : ℚ) * 2 ^ q = (m * 2 ^ q.toNat : ℕ) / (2 ^ (-q).toNat : ℕ) := by
  push_cast
  rw [← zpow_natCast, ← zpow_natCast, mul_div_assoc, ← zpow_sub₀ two_ne_zero]
  congr 2
  omega

theorem ceil_div (n : ℕ) {d : ℕ} (hd : 0 < d) : ⌈(n : ℚ) / d⌉ = ((n + (d - 1)) / d : ℕ) := by
  have hd₀ : (0 : ℚ) < d := by exact_mod_cast hd
  have hdiv := Nat.div_add_mod' (n + (d - 1)) d
  have hmod := Nat.mod_lt (n + (d - 1)) hd
  obtain ⟨k, hk⟩ : ∃ k, k = (n + (d - 1)) / d := ⟨_, rfl⟩
  rw [← hk] at hdiv ⊢
  have hlow : (k : ℚ) * d < n + d := by exact_mod_cast (by omega : k * d < n + d)
  have hhigh : (n : ℚ) ≤ k * d := by exact_mod_cast (by omega : n ≤ k * d)
  rw [Int.ceil_eq_iff, lt_div_iff₀ hd₀, div_le_iff₀ hd₀, Int.cast_natCast]
  exact ⟨by linarith, hhigh⟩

theorem floor?_of_isFinite {x : Float} (h : x.isFinite) : floor? x = some ⌊position x⌋ := by
  obtain ⟨negative, m, q, hshape, hpos⟩ := shape_of_isFinite h
  unfold floor?
  rw [hshape, hpos]
  simp only
  cases negative with
  | false =>
      rw [if_neg (by decide)]
      change _ = some ⌊(m : ℚ) * 2 ^ q⌋
      rw [mul_two_zpow_eq_div, Rat.floor_natCast_div_natCast, Int.natCast_ediv]
      rfl
  | true =>
      rw [if_pos rfl]
      change _ = some ⌊-((m : ℚ) * 2 ^ q)⌋
      rw [Int.floor_neg, mul_two_zpow_eq_div, ceil_div _ (Nat.two_pow_pos _)]
      rfl

theorem floor?_of_not_isFinite {x : Float} (h : ¬ x.isFinite) : floor? x = none := by
  unfold floor?
  cases hshape : shape x with
  | finite negative m q => exact absurd hshape (shape_ne_finite h negative m q)
  | _ => rfl

theorem ceil?_of_isFinite {x : Float} (h : x.isFinite) : ceil? x = some ⌈position x⌉ := by
  rw [ceil?, floor?_of_isFinite (by rwa [isFinite_neg_float]), position_neg, Int.floor_neg]
  simp

theorem ceil?_of_not_isFinite {x : Float} (h : ¬ x.isFinite) : ceil? x = none := by
  rw [ceil?, floor?_of_not_isFinite (by rwa [isFinite_neg_float])]
  rfl

end CurveSearch.Grid
