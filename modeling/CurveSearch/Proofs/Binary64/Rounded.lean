import CurveSearch.Proofs.Binary64.Shift

/-!
# Rounded results

The operations on doubles hand an exact result to one rounding step: a significand with its residual
bits, an exponent that is not too large, and a sign. This module reads that step as rounding to the
grid, and says what shape its result has: a zero, or a significand of fifty-three bits at an
exponent from the least one on.
-/

namespace CurveSearch.Grid

open Float.Model Float.Model.UnpackedFloat

/-- A number with a sign. -/
def signed : Sign → ℚ → ℚ
  | .negative, q => -q
  | .positive, q => q

@[simp] theorem signed_zero (s : Sign) : signed s 0 = 0 := by
  cases s <;> simp [signed]

theorem round_signed (s : Sign) (q : ℚ) : round (signed s q) = signed s (round q) := by
  cases s <;> simp [signed]

theorem abs_signed (s : Sign) (q : ℚ) : |signed s q| = |q| := by
  cases s <;> simp [signed]

/-- The rational that an unpacked double is. What is not a number counts as zero. -/
def value : UnpackedFloat → ℚ
  | .finite s m e _ => signed s (m * 2 ^ e)
  | _ => 0

/-- A finite double has at most fifty-three bits, all of them above the least exponent. The
exponent may still be too large for a double. -/
def IsRounded : UnpackedFloat → Prop
  | .finite _ m e _ => m < 2 ^ 53 ∧ -1074 ≤ e ∧ (e = -1074 ∨ 2 ^ 52 ≤ m)
  | _ => True

theorem binary64_targetExponent (t : ℤ) :
    Format.binary64.targetExponent t = max (t - 53) (-1074) := rfl

variable {m : ℕ} {e : ℤ} {acc : Accuracy} {x : ℚ}

theorem StandsFor.mantissa_le {em : ExtendedMantissa} (h : StandsFor em x) :
    (em.mantissa : ℚ) ≤ x ∧ x < em.mantissa + 1 := by
  obtain ⟨t, ht₀, ht₁, -, hx⟩ := h
  rw [hx]
  cases em.roundBit <;> simp <;> constructor <;> linarith

theorem mantissa_ofMantissaAndAccuracy (m : ℕ) (acc : Accuracy) :
    (ExtendedMantissa.ofMantissaAndAccuracy m acc).mantissa = m := by
  unfold ExtendedMantissa.ofMantissaAndAccuracy
  split <;> rfl

/-- The exponent that the model shifts to is the last place of the exact result. A significand of
zero does not show how small the result is, so its exponent must be low enough already. -/
theorem targetExponent_eq_lastPlace
    (hx : StandsFor (ExtendedMantissa.ofMantissaAndAccuracy m acc) x) (hpos : 0 < x)
    (he : m = 0 → e ≤ lastPlace (x * 2 ^ e)) :
    Format.binary64.targetExponent (totalExponent m e) = lastPlace (x * 2 ^ e) := by
  obtain ⟨hlow, hhigh⟩ := hx.mantissa_le
  rw [mantissa_ofMantissaAndAccuracy] at hlow hhigh
  have hpow : (0 : ℚ) < 2 ^ e := zpow_pos two_pos e
  have hprod : 0 < |x * 2 ^ e| := abs_pos.mpr (mul_pos hpos hpow).ne'
  rw [binary64_targetExponent, totalExponent]
  rcases Nat.eq_zero_or_pos m with rfl | hm
  · -- Nothing is left of the number, so it is below the least place.
    have hlog : Int.log 2 |x * 2 ^ e| < e := by
      refine (Int.lt_zpow_iff_log_lt one_lt_two hprod).mp ?_
      rw [abs_of_pos (mul_pos hpos hpow)]
      push_cast at hhigh ⊢
      calc x * 2 ^ e < 1 * 2 ^ e := mul_lt_mul_of_pos_right (by linarith) hpow
        _ = 2 ^ e := one_mul _
    have hle := he rfl
    unfold lastPlace at hle ⊢
    simp only [Nat.log2_zero]
    omega
  · have hlog : Int.log 2 |x * 2 ^ e| = m.log2 + e := by
      rw [abs_of_pos (mul_pos hpos hpow)]
      apply le_antisymm
      · rw [← Int.lt_add_one_iff, ← Int.lt_zpow_iff_log_lt one_lt_two (mul_pos hpos hpow)]
        have hlt : (m : ℚ) + 1 ≤ 2 ^ (m.log2 + 1) := by exact_mod_cast Nat.lt_log2_self
        push_cast
        calc x * 2 ^ e < (m + 1) * 2 ^ e := mul_lt_mul_of_pos_right hhigh hpow
          _ ≤ 2 ^ (m.log2 + 1) * 2 ^ e := mul_le_mul_of_nonneg_right hlt hpow.le
          _ = 2 ^ (m.log2 + e + 1 : ℤ) := by
              rw [← zpow_natCast, ← zpow_add₀ two_ne_zero]
              congr 1
              push_cast
              ring
      · rw [← Int.zpow_le_iff_le_log one_lt_two (mul_pos hpos hpow)]
        have hle : (2 ^ m.log2 : ℚ) ≤ m := by exact_mod_cast Nat.log2_self_le hm.ne'
        push_cast
        calc (2 : ℚ) ^ (m.log2 + e : ℤ) = 2 ^ m.log2 * 2 ^ e := by
              rw [zpow_add₀ two_ne_zero, zpow_natCast]
          _ ≤ m * 2 ^ e := mul_le_mul_of_nonneg_right hle hpow.le
          _ ≤ x * 2 ^ e := mul_le_mul_of_nonneg_right hlow hpow.le
    unfold lastPlace
    rw [hlog]
    congr 1
    ring

theorem shiftToTargetExponent_exact_of_lt {r : ℕ} {t : ℤ} (hr : r < 2 ^ 53) (ht : -1074 ≤ t) :
    shiftToTargetExponent .binary64 r t .exact = (⟨r, false, false⟩, t) := by
  have hlog : r.log2 ≤ 52 := by
    rcases Nat.eq_zero_or_pos r with rfl | hpos
    · simp
    · exact Nat.le_of_lt_succ ((Nat.log2_lt hpos.ne').mpr hr)
  have hshift : (Format.binary64.targetExponent (totalExponent r t) - t).toNat = 0 := by
    rw [binary64_targetExponent, totalExponent]
    omega
  unfold shiftToTargetExponent shiftToExponent
  simp only [hshift]
  exact Prod.ext rfl (by simp)

theorem shiftToTargetExponent_exact_two_pow {t : ℤ} (ht : -1074 ≤ t) :
    shiftToTargetExponent .binary64 (2 ^ 53) t .exact = (⟨2 ^ 52, false, false⟩, t + 1) := by
  have hshift : (Format.binary64.targetExponent (totalExponent (2 ^ 53) t) - t).toNat = 1 := by
    rw [binary64_targetExponent, totalExponent, Nat.log2_two_pow]
    omega
  unfold shiftToTargetExponent shiftToExponent
  simp only [hshift]
  rfl

/-- The three results of the rounding step: nothing is left, the significand fits, or it has been
rounded up to the next power of two and is shifted once more. -/
theorem roundWithAccuracy_cases (s : Sign) {em : ExtendedMantissa} {t : ℤ}
    (hshift : shiftToTargetExponent .binary64 m e acc = (em, t))
    (hr : em.roundedMantissa ≤ 2 ^ 53) (ht : -1074 ≤ t) :
    (em.roundedMantissa = 0 ∧ roundWithAccuracy .binary64 s m e acc = .zero s) ∨
    (em.roundedMantissa < 2 ^ 53 ∧ ∃ h : 0 < em.roundedMantissa,
      roundWithAccuracy .binary64 s m e acc = .finite s em.roundedMantissa t h) ∨
    (em.roundedMantissa = 2 ^ 53 ∧
      roundWithAccuracy .binary64 s m e acc = .finite s (2 ^ 52) (t + 1) (by norm_num)) := by
  unfold roundWithAccuracy
  simp only [hshift]
  rcases hr.lt_or_eq with hlt | heq
  · simp only [shiftToTargetExponent_exact_of_lt hlt ht]
    rcases Nat.eq_zero_or_pos em.roundedMantissa with hzero | hpos
    · exact .inl ⟨hzero, by simp [hzero]⟩
    · exact .inr (.inl ⟨hlt, hpos, by simp [hpos.ne']⟩)
  · simp only [heq, shiftToTargetExponent_exact_two_pow ht]
    exact .inr (.inr ⟨trivial, by simp⟩)

/-- The rounded significand of a positive number: at most fifty-three bits, or the next power of
two, and no fewer bits above the least place. -/
theorem roundEven_div_unit_bounds {q : ℚ} (hq : 0 < q) {r : ℕ}
    (hr : (r : ℤ) = roundEven (q / unit q)) :
    round q = r * unit q ∧ r ≤ 2 ^ 53 ∧ (lastPlace q = -1074 ∨ 2 ^ 52 ≤ r) := by
  have hround : round q = r * unit q := by
    rw [round, ← hr, Int.cast_natCast]
  refine ⟨hround, ?_, (neg_1074_le_lastPlace q).eq_or_lt.imp Eq.symm fun hlt ↦ ?_⟩
  · have hlt : q ≤ (2 ^ 53 : ℤ) * unit q := by
      have h := abs_lt_two_pow_lastPlace q
      rw [abs_of_pos hq] at h
      exact_mod_cast h.le.trans_eq (two_pow_mul_unit q 53).symm
    have hcast := round_le_mul_unit hlt
    rw [hround] at hcast
    exact_mod_cast le_of_mul_le_mul_right hcast (unit_pos q)
  · have hbig : (2 ^ 52 : ℤ) * unit q ≤ q := by
      have h := two_pow_lastPlace_le_abs hq.ne' hlt
      rw [abs_of_pos hq] at h
      exact_mod_cast (two_pow_mul_unit q 52).trans_le h
    have hcast := mul_unit_le_round hbig
    rw [hround] at hcast
    exact_mod_cast le_of_mul_le_mul_right hcast (unit_pos q)

/-- An unpacked double that is the rounded rational, with an exponent without bound. -/
structure IsRoundOf (u : UnpackedFloat) (q : ℚ) : Prop where
  rounded : IsRounded u
  finite : u.isFinite = true
  value_eq : value u = round q

/-- The rounding step of the model is rounding to the grid. -/
theorem isRoundOf_roundWithAccuracy (s : Sign)
    (hx : StandsFor (ExtendedMantissa.ofMantissaAndAccuracy m acc) x) (hpos : 0 < x)
    (he : e ≤ lastPlace (x * 2 ^ e)) :
    IsRoundOf (roundWithAccuracy .binary64 s m e acc) (signed s (x * 2 ^ e)) := by
  obtain ⟨q, hq⟩ : ∃ q, q = x * 2 ^ e := ⟨_, rfl⟩
  have htarget := targetExponent_eq_lastPlace hx hpos (fun _ ↦ he)
  rw [← hq] at he htarget ⊢
  have hshift : shiftToTargetExponent .binary64 m e acc =
      (ExtendedMantissa.ofMantissaAndAccuracy m acc >>> (lastPlace q - e).toNat, lastPlace q) := by
    unfold shiftToTargetExponent shiftToExponent
    simp only [htarget]
    exact Prod.ext rfl (by simp only; omega)
  -- The significand after the first shift stands for the result in units of the last place.
  have hstands := hx.shiftRight (lastPlace q - e).toNat
  have hdiv : x / 2 ^ (lastPlace q - e).toNat = q / unit q := by
    have hsplit : unit q = 2 ^ (lastPlace q - e).toNat * 2 ^ e := by
      rw [unit, ← zpow_natCast, ← zpow_add₀ two_ne_zero]
      congr 1
      omega
    rw [hsplit, hq, mul_div_mul_right _ _ (zpow_pos two_pos e).ne']
  rw [hdiv] at hstands
  obtain ⟨hround, hle, hge⟩ := roundEven_div_unit_bounds
    (hq ▸ mul_pos hpos (zpow_pos two_pos e)) hstands.roundedMantissa_eq
  have hplace := neg_1074_le_lastPlace q
  rcases roundWithAccuracy_cases s hshift hle hplace with
    ⟨hr, heq⟩ | ⟨hr, hpos, heq⟩ | ⟨hr, heq⟩
  · rw [heq]
    refine ⟨trivial, rfl, ?_⟩
    rw [round_signed, hround, hr]
    simp [value]
  · rw [heq]
    exact ⟨⟨hr, hplace, hge⟩, rfl, by rw [round_signed, hround]; rfl⟩
  · rw [heq]
    refine ⟨⟨by norm_num, by omega, .inr le_rfl⟩, rfl, ?_⟩
    rw [round_signed, hround, hr, value, unit, zpow_add₀ two_ne_zero]
    congr 1
    push_cast
    ring

/-! ## Rounding exact sums and products -/

theorem isRoundOf_round (s : Sign) {m : ℕ} (hm : 0 < m) (e : ℤ) :
    IsRoundOf (UnpackedFloat.round .binary64 s m e) (signed s (m * 2 ^ e)) := by
  have hpos : (0 : ℚ) < m := by exact_mod_cast hm
  have htarget := targetExponent_eq_lastPlace (standsFor_exact m) hpos
    (fun h ↦ absurd h hm.ne') (e := e)
  unfold UnpackedFloat.round decreaseExponent
  simp only [htarget]
  obtain ⟨k, hk⟩ : ∃ k, k = (e - lastPlace (m * 2 ^ e)).toNat := ⟨_, rfl⟩
  rw [← hk]
  -- Shifting to the left changes the significand and the exponent, not the number.
  have hsame : (m : ℚ) * 2 ^ e = (m <<< k : ℕ) * 2 ^ (e - k) := by
    rw [Nat.shiftLeft_eq, zpow_sub₀ two_ne_zero, zpow_natCast]
    push_cast
    field_simp
  rw [hsame]
  refine isRoundOf_roundWithAccuracy s (standsFor_exact _) ?_ ?_
  · rw [Nat.shiftLeft_eq]
    positivity
  · rw [← hsame]
    omega

theorem isRoundOf_normalize (n : ℤ) (e : ℤ) (zeroSign : Sign) :
    IsRoundOf (UnpackedFloat.normalize .binary64 n e zeroSign) (n * 2 ^ e) := by
  unfold UnpackedFloat.normalize
  rcases lt_trichotomy n 0 with hn | rfl | hn
  · rw [Int.compare_eq_lt.mpr hn]
    have hcast : ((-n).toNat : ℚ) = -n := by exact_mod_cast Int.toNat_of_nonneg (by omega)
    have h := isRoundOf_round .negative (m := (-n).toNat) (by omega) e
    simpa [signed, hcast] using h
  · rw [Int.compare_eq_eq.mpr rfl]
    exact ⟨trivial, rfl, by simp [value]⟩
  · rw [Int.compare_eq_gt.mpr hn]
    have hcast : (n.toNat : ℚ) = n := by exact_mod_cast Int.toNat_of_nonneg hn.le
    have h := isRoundOf_round .positive (m := n.toNat) (by omega) e
    simpa [signed, hcast] using h

end CurveSearch.Grid
