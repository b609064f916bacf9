import CurveSearch.Proofs.Binary64.Decoding

/-!
# Relative errors

A sum of doubles, or a double taken a whole number of times, is a multiple of the least double of
all. For such numbers there is no underflow, so rounding has a relative error of at most `2 ^ -53`
everywhere, and a number that is clearly beyond a double is rounded to a number beyond it.
-/

namespace CurveSearch.Grid

/-- The least positive double. -/
def finest : ℚ := 2 ^ (-1074 : ℤ)

/-- A whole multiple of the least positive double. -/
def Fine (x : ℚ) : Prop := ∃ n : ℤ, x = n * finest

theorem OnGrid.fine {x : ℚ} (h : OnGrid x) : Fine x := by
  obtain ⟨m, e, -, he, rfl⟩ := h
  refine ⟨m * 2 ^ (e + 1074).toNat, ?_⟩
  have hsplit : (2 : ℚ) ^ e = 2 ^ (e + 1074).toNat * finest := by
    rw [finest, ← zpow_natCast, ← zpow_add₀ two_ne_zero]
    congr 1
    omega
  rw [hsplit]
  push_cast
  ring

theorem Fine.add {x y : ℚ} (hx : Fine x) (hy : Fine y) : Fine (x + y) := by
  obtain ⟨m, rfl⟩ := hx
  obtain ⟨n, rfl⟩ := hy
  exact ⟨m + n, by push_cast; ring⟩

theorem Fine.sub {x y : ℚ} (hx : Fine x) (hy : Fine y) : Fine (x - y) := by
  obtain ⟨m, rfl⟩ := hx
  obtain ⟨n, rfl⟩ := hy
  exact ⟨m - n, by push_cast; ring⟩

theorem Fine.natCast_mul {x : ℚ} (hx : Fine x) (k : ℕ) : Fine (k * x) := by
  obtain ⟨m, rfl⟩ := hx
  exact ⟨k * m, by push_cast; ring⟩

theorem abs_round_sub_le_mul {x : ℚ} (h : Fine x) : |round x - x| ≤ |x| * 2 ^ (-53 : ℤ) := by
  rcases eq_or_ne x 0 with rfl | hx
  · simp
  rcases (neg_1074_le_lastPlace x).eq_or_lt with hleast | hlt
  · -- In the least place nothing is lost.
    obtain ⟨n, hn⟩ := h
    have hunit : x = n * unit x := by
      rw [unit, ← hleast]
      exact hn
    have hdiv : x / unit x = n := by
      rw [div_eq_iff (unit_pos x).ne']
      exact hunit
    rw [round, hdiv, roundEven_intCast, ← hunit, sub_self, abs_zero]
    exact mul_nonneg (abs_nonneg x) (zpow_pos two_pos _).le
  · calc |round x - x| ≤ unit x / 2 := abs_round_sub_le x
      _ = 2 ^ (lastPlace x + 52) * 2 ^ (-53 : ℤ) := by
          rw [unit, ← zpow_add₀ two_ne_zero, div_eq_mul_inv, ← zpow_sub_one₀ two_ne_zero]
          congr 1
          ring
      _ ≤ |x| * 2 ^ (-53 : ℤ) :=
          mul_le_mul_of_nonneg_right (two_pow_lastPlace_le_abs hx hlt) (zpow_pos two_pos _).le

theorem lt_saturate {x y : ℚ} (hx : |x| < limit) (h : x < y) : x < saturate y := by
  obtain ⟨-, hhigh⟩ := abs_lt.mp hx
  exact lt_max_of_lt_right (lt_min hhigh h)

/-- A number is rounded to a double beyond `x` if its distance from `x` is not lost in the rounding
errors of both. -/
theorem lt_nearest {x y : ℚ} (hx : |x| < limit) (hy : Fine y)
    (h : |x| * 2 ^ (-53 : ℤ) < (y - x) * (1 - 2 ^ (-53 : ℤ))) : x < nearest y := by
  refine lt_saturate hx ?_
  have herr := (abs_le.mp (abs_round_sub_le_mul hy)).1
  have hgap : 0 ≤ y - x := by
    have hpos : (0 : ℚ) ≤ |x| * 2 ^ (-53 : ℤ) := mul_nonneg (abs_nonneg x) (by norm_num)
    have hone : (0 : ℚ) < 1 - 2 ^ (-53 : ℤ) := by norm_num
    exact (pos_of_mul_pos_left (hpos.trans_lt h) hone.le).le
  have habs : |y| ≤ |x| + (y - x) := by
    calc |y| = |x + (y - x)| := by rw [add_sub_cancel]
      _ ≤ |x| + |y - x| := abs_add_le _ _
      _ = |x| + (y - x) := by rw [abs_of_nonneg hgap]
  have hmul : |y| * 2 ^ (-53 : ℤ) ≤ (|x| + (y - x)) * 2 ^ (-53 : ℤ) :=
    mul_le_mul_of_nonneg_right habs (zpow_pos two_pos _).le
  linarith

end CurveSearch.Grid
