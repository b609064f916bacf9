import CurveSearch.Binary64
import CurveSearch.Proofs.Binary64.Rounded

/-!
# Rounding a fraction

The double nearest to a fraction is computed with natural numbers: a unit is chosen from the lengths
of numerator and denominator, and the quotient in that unit is rounded. The unit is the last place
of the fraction, so what is computed is rounding to the grid, and the bits follow from the rounded
number because a double has only one significand and exponent.
-/

namespace CurveSearch.Grid

open Binary64

variable {num den : ℕ}

/-! ## Units -/

theorem le_lastPlace_of_two_pow_le {q : ℚ} {e : ℤ} (h : 2 ^ (e + 52) ≤ |q|) :
    e ≤ lastPlace q := by
  have hpos : 0 < |q| := (zpow_pos two_pos _).trans_le h
  have hlog : e + 52 ≤ Int.log 2 |q| :=
    (Int.zpow_le_iff_le_log one_lt_two hpos).mp (by exact_mod_cast h)
  unfold lastPlace
  omega

theorem inUnits_den_pos (num : ℕ) (hden : 0 < den) (unit : ℤ) : 0 < (inUnits num den unit).2 :=
  Nat.mul_pos hden (Nat.pow_pos two_pos)

theorem cast_inUnits (num den : ℕ) (unit : ℤ) :
    ((inUnits num den unit).1 : ℚ) / (inUnits num den unit).2 = num / den / 2 ^ unit := by
  have hpow : (2 : ℚ) ^ (-unit).toNat / 2 ^ unit.toNat = (2 ^ unit)⁻¹ := by
    rw [← zpow_natCast, ← zpow_natCast, ← zpow_sub₀ two_ne_zero, ← zpow_neg]
    congr 1
    omega
  unfold inUnits
  simp only [Nat.pow_eq]
  push_cast
  rw [mul_div_mul_comm, hpow, ← div_eq_mul_inv]

/-- A fraction lies within a factor of two of the quotient of the powers of two that numerator and
denominator begin with. -/
theorem two_pow_log2_sub_bounds (hnum : 0 < num) (hden : 0 < den) :
    2 ^ ((num.log2 : ℤ) - den.log2 - 1) < (num / den : ℚ) ∧
      (num / den : ℚ) < 2 ^ ((num.log2 : ℤ) - den.log2 + 1) := by
  have hden₀ : (0 : ℚ) < den := by exact_mod_cast hden
  have hnum₁ : (2 : ℚ) ^ (num.log2 : ℤ) ≤ num := by
    rw [zpow_natCast]
    exact_mod_cast Nat.log2_self_le hnum.ne'
  have hden₁ : (2 : ℚ) ^ (den.log2 : ℤ) ≤ den := by
    rw [zpow_natCast]
    exact_mod_cast Nat.log2_self_le hden.ne'
  have hnum₂ : (num : ℚ) < 2 ^ ((num.log2 : ℤ) + 1) := by
    exact_mod_cast (Nat.lt_log2_self (n := num))
  have hden₂ : (den : ℚ) < 2 ^ ((den.log2 : ℤ) + 1) := by
    exact_mod_cast (Nat.lt_log2_self (n := den))
  rw [lt_div_iff₀ hden₀, div_lt_iff₀ hden₀]
  constructor
  · calc (2 : ℚ) ^ ((num.log2 : ℤ) - den.log2 - 1) * den
        < 2 ^ ((num.log2 : ℤ) - den.log2 - 1) * 2 ^ ((den.log2 : ℤ) + 1) :=
          mul_lt_mul_of_pos_left hden₂ (zpow_pos two_pos _)
      _ = 2 ^ (num.log2 : ℤ) := by
          rw [← zpow_add₀ two_ne_zero]
          congr 1
          ring
      _ ≤ num := hnum₁
  · calc (num : ℚ) < 2 ^ ((num.log2 : ℤ) + 1) := hnum₂
      _ = 2 ^ ((num.log2 : ℤ) - den.log2 + 1) * 2 ^ (den.log2 : ℤ) := by
          rw [← zpow_add₀ two_ne_zero]
          congr 1
          ring
      _ ≤ 2 ^ ((num.log2 : ℤ) - den.log2 + 1) * den :=
          mul_le_mul_of_nonneg_left hden₁ (zpow_pos two_pos _).le

theorem unitFor_eq_lastPlace (hnum : 0 < num) (hden : 0 < den) :
    unitFor num den = lastPlace (num / den) := by
  obtain ⟨x, hx⟩ : ∃ x : ℚ, x = num / den := ⟨_, rfl⟩
  have hpos : 0 < x := by
    rw [hx]
    exact div_pos (by exact_mod_cast hnum) (by exact_mod_cast hden)
  obtain ⟨hlow, hhigh⟩ := two_pow_log2_sub_bounds hnum hden
  obtain ⟨low, hdef⟩ : ∃ low, low = max (-1074) ((num.log2 : ℤ) - den.log2 - 53) := ⟨_, rfl⟩
  rw [← hx] at hlow hhigh ⊢
  -- The quotient in the lower of the two units has fifty-three or fifty-four bits.
  have htest : Nat.pow 2 53 * (inUnits num den low).2 ≤ (inUnits num den low).1 ↔
      2 ^ (low + 53) ≤ x := by
    have hd : (0 : ℚ) < (inUnits num den low).2 := by exact_mod_cast inUnits_den_pos num hden low
    rw [zpow_add₀ two_ne_zero, ← le_div_iff₀' (zpow_pos two_pos low), hx, ← cast_inUnits,
      le_div_iff₀ hd]
    norm_cast
  have hunit : unitFor num den = if 2 ^ (low + 53) ≤ x then low + 1 else low := by
    rw [← if_congr htest rfl rfl, hdef]
    rfl
  rw [hunit]
  split_ifs with hbig
  · apply le_antisymm
    · apply le_lastPlace_of_two_pow_le
      rwa [abs_of_pos hpos, add_assoc]
    · apply lastPlace_le_of_abs_lt hpos.ne' (by omega)
      rw [abs_of_pos hpos]
      exact hhigh.trans_le (zpow_le_zpow_right₀ one_le_two (by omega))
  · apply le_antisymm
    · rcases le_total ((num.log2 : ℤ) - den.log2 - 53) (-1074) with hle | hle
      · rw [hdef, max_eq_left hle]
        exact neg_1074_le_lastPlace x
      · apply le_lastPlace_of_two_pow_le
        rw [abs_of_pos hpos, hdef, max_eq_right hle]
        exact hlow.le.trans' (zpow_le_zpow_right₀ one_le_two (by omega))
    · apply lastPlace_le_of_abs_lt hpos.ne' (by omega)
      rw [abs_of_pos hpos]
      exact not_le.mp hbig

/-! ## Rounding -/

theorem cast_roundDiv_toEven (n : ℕ) {d : ℕ} (hd : 0 < d) :
    (roundDiv .toEven n d : ℤ) = roundEven (n / d) := by
  have hd₀ : (0 : ℚ) < d := by exact_mod_cast hd
  have hfloor : ⌊(n / d : ℚ)⌋ = (n / d : ℕ) := Rat.floor_natCast_div_natCast n d
  have hfract : Int.fract (n / d : ℚ) = (n % d : ℕ) / d := Int.fract_div_natCast_eq_div_natCast_mod
  have hless : (n % d : ℕ) / (d : ℚ) < 1 / 2 ↔ 2 * (n % d) < d := by
    rw [div_lt_div_iff₀ hd₀ two_pos]
    norm_cast
    omega
  have hmore : 1 / 2 < (n % d : ℕ) / (d : ℚ) ↔ d < 2 * (n % d) := by
    rw [div_lt_div_iff₀ two_pos hd₀]
    norm_cast
    omega
  unfold roundDiv roundEven
  simp only [hfloor, hfract, hless, hmore]
  split_ifs <;> push_cast <;> rfl

theorem nearest_eq (hnum : 0 < num) (hden : 0 < den) {x : ℚ} (hx : x = num / den) {k : ℕ}
    (hk : (k : ℤ) = roundEven (x / unit x)) :
    Binary64.nearest num den =
      min infinityBits ((lastPlace x + 1074).toNat * 2 ^ 52 + k) := by
  have hround : roundDiv .toEven (inUnits num den (lastPlace x)).1
      (inUnits num den (lastPlace x)).2 = k := by
    have hcast := cast_roundDiv_toEven (inUnits num den (lastPlace x)).1
      (inUnits_den_pos num hden (lastPlace x))
    rw [cast_inUnits, ← hx] at hcast
    exact_mod_cast hcast.trans hk.symm
  unfold Binary64.nearest
  rw [if_neg hnum.ne']
  simp only [unitFor_eq_lastPlace hnum hden, ← hx, hround, Nat.pow_eq]

/-! ## Bits of a rounded number -/

theorem eq_mul_two_pow {k m : ℕ} {u q : ℤ} (hle : u ≤ q) (h : (k : ℚ) * 2 ^ u = m * 2 ^ q) :
    k = m * 2 ^ (q - u).toNat := by
  have hsplit : (2 : ℚ) ^ q = 2 ^ (q - u).toNat * 2 ^ u := by
    rw [← zpow_natCast, ← zpow_add₀ two_ne_zero]
    congr 1
    omega
  rw [hsplit, ← mul_assoc] at h
  exact_mod_cast mul_right_cancel₀ (zpow_pos two_pos u).ne' h

/-- A number has one encoding, also if its significand has been rounded up to the next power of
two. -/
theorem encoding_unique {k m : ℕ} {u q : ℤ} (hk : k ≤ 2 ^ 53) (hu : -1074 ≤ u)
    (hku : u = -1074 ∨ 2 ^ 52 ≤ k) (hm : m < 2 ^ 53) (hq : -1074 ≤ q)
    (hmq : q = -1074 ∨ 2 ^ 52 ≤ m) (h : (k : ℚ) * 2 ^ u = m * 2 ^ q) :
    (u + 1074).toNat * 2 ^ 52 + k = (q + 1074).toNat * 2 ^ 52 + m := by
  rcases lt_trichotomy u q with hlt | rfl | hgt
  · have hmul := eq_mul_two_pow hlt.le h
    obtain ⟨d, hd⟩ : ∃ d : ℕ, (q - u).toNat = d + 1 := ⟨(q - u).toNat - 1, by omega⟩
    have hbig : 2 ^ 52 ≤ m := hmq.resolve_left (by omega)
    rcases Nat.eq_zero_or_pos d with rfl | hpos
    · rw [hd] at hmul
      omega
    · -- Two places further the significand would have more than fifty-three bits.
      have hpow : 2 ^ 2 ≤ 2 ^ (d + 1) := Nat.pow_le_pow_right two_pos (by omega)
      have hlarge : 2 ^ 52 * 2 ^ 2 ≤ k := by
        rw [hmul, hd]
        exact Nat.mul_le_mul hbig hpow
      omega
  · have hmul := eq_mul_two_pow le_rfl h
    rw [sub_self, Int.toNat_zero, pow_zero, mul_one] at hmul
    rw [hmul]
  · have hmul := eq_mul_two_pow hgt.le h.symm
    obtain ⟨d, hd⟩ : ∃ d : ℕ, (u - q).toNat = d + 1 := ⟨(u - q).toNat - 1, by omega⟩
    have hbig : 2 ^ 52 ≤ k := hku.resolve_left (by omega)
    have hpow : 2 ^ 1 ≤ 2 ^ (d + 1) := Nat.pow_le_pow_right two_pos (by omega)
    have hlarge : 2 ^ 52 * 2 ^ 1 ≤ m := by
      rw [hmul, hd]
      exact Nat.mul_le_mul hbig hpow
    omega

theorem significand_lt (bits : ℕ) : significand bits < 2 ^ 53 := by
  unfold significand
  rw [Nat.pow_eq]
  split_ifs <;> omega

theorem neg_1074_le_exponent (bits : ℕ) : -1074 ≤ exponent bits := by
  unfold exponent
  omega

theorem exponent_eq_or_le_significand (bits : ℕ) :
    exponent bits = -1074 ∨ 2 ^ 52 ≤ significand bits := by
  unfold exponent significand
  rw [Nat.pow_eq]
  split_ifs <;> omega

theorem nearest_of_round_eq (hnum : 0 < num) (hden : 0 < den) {bits : ℕ}
    (hbits : bits < infinityBits)
    (h : round (num / den) = significand bits * 2 ^ exponent bits) :
    Binary64.nearest num den = bits := by
  obtain ⟨x, hx⟩ : ∃ x : ℚ, x = num / den := ⟨_, rfl⟩
  have hpos : 0 < x := by
    rw [hx]
    exact div_pos (by exact_mod_cast hnum) (by exact_mod_cast hden)
  have hnonneg : 0 ≤ roundEven (x / unit x) := by
    have hmono := roundEven_mono (div_nonneg hpos.le (unit_pos x).le)
    rwa [← Int.cast_zero, roundEven_intCast] at hmono
  obtain ⟨k, hk⟩ := Int.eq_ofNat_of_zero_le hnonneg
  obtain ⟨hround, hle, hge⟩ := roundEven_div_unit_bounds hpos hk.symm
  rw [← hx, hround] at h
  have hencoding := encoding_unique hle (neg_1074_le_lastPlace x) hge (significand_lt bits)
    (neg_1074_le_exponent bits) (exponent_eq_or_le_significand bits) h
  rw [nearest_eq hnum hden hx hk.symm, hencoding]
  exact (min_eq_right_iff.mpr ((encode_decode hbits).trans_le hbits.le)).trans (encode_decode hbits)

end CurveSearch.Grid
