import CurveSearch.Proofs.Binary64.Grid

/-!
# Rounding a significand bit by bit

The model of a double rounds by shifting: it drops one bit of the significand at a time, keeps the
last dropped bit and whether any bit before it was set, and rounds from these two at the end. Here
such a significand *represents* a rational, one shift halves what it represents, and the rounded
significand is the nearest integer. With that the whole rounding step is rounding to the grid.
-/

namespace CurveSearch.Grid

open Float.Model Float.Model.UnpackedFloat

/-- A significand with its two residual bits stands for a rational: the round bit is worth a half,
and the sticky bit says whether the rest `t` of that half is missing. -/
def StandsFor (em : ExtendedMantissa) (x : ℚ) : Prop :=
  ∃ t : ℚ, 0 ≤ t ∧ t < 1 ∧ (em.stickyBit = true ↔ t ≠ 0) ∧
    x = em.mantissa + (em.roundBit.toNat + t) / 2

theorem standsFor_exact (m : ℕ) :
    StandsFor (ExtendedMantissa.ofMantissaAndAccuracy m .exact) m :=
  ⟨0, le_rfl, one_pos, by simp [ExtendedMantissa.ofMantissaAndAccuracy],
    by simp [ExtendedMantissa.ofMantissaAndAccuracy]⟩

theorem standsFor_fraction (m : ℕ) {num den : ℕ} (h : num < den) :
    StandsFor (ExtendedMantissa.ofMantissaAndAccuracy m (accuracyOfFraction num den))
      (m + num / den) := by
  have hden : (0 : ℚ) < den := by exact_mod_cast (Nat.zero_le num).trans_lt h
  have hlt : (num : ℚ) < den := by exact_mod_cast h
  unfold accuracyOfFraction
  split_ifs with hzero
  · simpa [hzero] using standsFor_exact m
  have hnum : (0 : ℚ) < num := by exact_mod_cast Nat.pos_of_ne_zero hzero
  rcases lt_trichotomy (2 * num) den with hcmp | hcmp | hcmp
  · have hcmp' : (2 * num : ℚ) < den := by exact_mod_cast hcmp
    rw [Nat.compare_eq_lt.mpr hcmp]
    refine ⟨2 * (num / den), by positivity, ?_, ?_, ?_⟩
    · rw [← mul_div_assoc, div_lt_one hden]
      exact hcmp'
    · simp [ExtendedMantissa.ofMantissaAndAccuracy, hnum.ne', hden.ne']
    · simp [ExtendedMantissa.ofMantissaAndAccuracy]
  · have hcmp' : (2 * num : ℚ) = den := by exact_mod_cast hcmp
    rw [Nat.compare_eq_eq.mpr hcmp]
    refine ⟨0, le_rfl, one_pos, by simp [ExtendedMantissa.ofMantissaAndAccuracy], ?_⟩
    simp only [ExtendedMantissa.ofMantissaAndAccuracy, ← hcmp', Bool.toNat_true]
    field_simp
    norm_num
  · have hcmp' : (den : ℚ) < 2 * num := by exact_mod_cast hcmp
    rw [Nat.compare_eq_gt.mpr hcmp]
    refine ⟨2 * (num / den) - 1, ?_, ?_, ?_, ?_⟩
    · rw [sub_nonneg, ← mul_div_assoc, one_le_div hden]
      exact hcmp'.le
    · have hquot : (num / den : ℚ) < 1 := (div_lt_one hden).mpr hlt
      linarith
    · have hne : 2 * (num / den : ℚ) - 1 ≠ 0 := by
        have hgt : 1 < 2 * (num / den : ℚ) := by
          rw [← mul_div_assoc, one_lt_div hden]
          exact hcmp'
        linarith
      simp [ExtendedMantissa.ofMantissaAndAccuracy, hne]
    · simp only [ExtendedMantissa.ofMantissaAndAccuracy, Bool.toNat_true]
      push_cast
      ring

/-- One shift halves what is represented: the round bit and the rest become the new rest. -/
theorem StandsFor.shiftRightOne {em : ExtendedMantissa} {x : ℚ} (h : StandsFor em x) :
    StandsFor em.shiftRightOne (x / 2) := by
  obtain ⟨t, ht₀, ht₁, hsticky, hx⟩ := h
  obtain ⟨m, r, s⟩ := em
  simp only at hsticky hx
  have hm : (m : ℚ) = 2 * (m / 2 : ℕ) + (m % 2 : ℕ) := by exact_mod_cast (Nat.div_add_mod m 2).symm
  have hbit : ((m % 2 != 0).toNat : ℚ) = (m % 2 : ℕ) := by
    rcases Nat.mod_two_eq_zero_or_one m with hmod | hmod <;> simp [hmod]
  refine ⟨(r.toNat + t) / 2, by positivity, ?_, ?_, ?_⟩
  · cases r <;> simp <;> linarith
  · cases r
    · simp [ExtendedMantissa.shiftRightOne, hsticky]
    · have hne : 1 + t ≠ 0 := by linarith
      simp [ExtendedMantissa.shiftRightOne, hne]
  · simp only [ExtendedMantissa.shiftRightOne, hbit, hx, hm]
    ring

theorem StandsFor.shiftRight {em : ExtendedMantissa} {x : ℚ} (h : StandsFor em x) (n : ℕ) :
    StandsFor (em >>> n) (x / 2 ^ n) := by
  induction n with
  | zero =>
      rw [pow_zero, div_one]
      exact h
  | succ n ih =>
      rw [pow_succ, ← div_div]
      exact ih.shiftRightOne

/-- Rounding from the residual bits is rounding to the nearest integer. -/
theorem StandsFor.roundedMantissa_eq {em : ExtendedMantissa} {x : ℚ} (h : StandsFor em x) :
    (em.roundedMantissa : ℤ) = roundEven x := by
  obtain ⟨t, ht₀, ht₁, hsticky, hx⟩ := h
  obtain ⟨m, r, s⟩ := em
  simp only at hsticky hx
  have hfloor : ⌊x⌋ = m := by
    rw [Int.floor_eq_iff, hx]
    cases r <;> simp <;> constructor <;> linarith
  have hfract : Int.fract x = (r.toNat + t) / 2 := by
    rw [Int.fract, hfloor, hx]
    push_cast
    ring
  unfold roundEven ExtendedMantissa.roundedMantissa ExtendedMantissa.accuracy
  rw [hfract, hfloor]
  cases r <;> cases s
  · have ht : t = 0 := by simpa using hsticky
    simp [ht, Accuracy.roundToNearestEven]
  · have hlt : t / 2 < 2⁻¹ := by linarith
    simp [hlt, Accuracy.roundToNearestEven]
  · have ht : t = 0 := by simpa using hsticky
    simp [ht, Accuracy.roundToNearestEven]
  · have hpos : 0 < t := ht₀.lt_of_ne' (by simpa using hsticky)
    have hge : ¬ (1 + t) / 2 < 2⁻¹ := by linarith
    have hgt : 2⁻¹ < (1 + t) / 2 := by linarith
    simp [hge, hgt, Accuracy.roundToNearestEven]

end CurveSearch.Grid
