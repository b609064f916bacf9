import CurveSearch.Proofs.Binary64.Monotone
import CurveSearch.Proofs.Binary64.Nearest

/-!
# Midpoints of large numbers

Half the sum of two numbers is computed by rounding the sum and halving it. Where the double of one
of the numbers overflows, the sum overflows too unless the numbers are far enough apart for rounding
to leave it between the doubles; so the midpoint is then strictly inside, or infinite.
-/

namespace CurveSearch.Grid

variable {p q : ℚ} {a b : Float}

/-! ## The sums that reach the limit -/

/-- Half the weight of the last place that the greatest doubles have. -/
def halfGreatestUnit : ℚ := 2 ^ 970

theorem one_le_halfGreatestUnit : 1 ≤ halfGreatestUnit := one_le_pow₀ one_le_two

theorem limit_eq_mul : limit = 2 ^ 54 * halfGreatestUnit := by
  rw [limit, halfGreatestUnit, ← pow_add]

theorem half_limit_eq_mul : limit / 2 = 2 ^ 53 * halfGreatestUnit := by
  rw [limit_eq_mul]
  ring

theorem two_mul_halfGreatestUnit : 2 * halfGreatestUnit = 2 ^ (971 : ℤ) := by
  rw [halfGreatestUnit, ← pow_succ', ← zpow_natCast]
  norm_num

theorem unit_le_of_lt_limit (hq : q ≠ 0) (h : |q| < limit) : unit q ≤ 2 * halfGreatestUnit := by
  have hplace : lastPlace q ≤ 971 := by
    refine lastPlace_le_of_abs_lt hq (by norm_num) (h.trans_eq ?_)
    rw [limit, ← zpow_natCast]
    norm_num
  rw [two_mul_halfGreatestUnit]
  exact zpow_le_zpow_right₀ one_le_two hplace

theorem unit_limit_sub : unit (limit - halfGreatestUnit) = 2 * halfGreatestUnit := by
  have hu := one_le_halfGreatestUnit
  have hpos : 0 < limit - halfGreatestUnit := by
    rw [limit_eq_mul]
    linarith
  have habs : |limit - halfGreatestUnit| = limit - halfGreatestUnit := abs_of_pos hpos
  refine le_antisymm (unit_le_of_lt_limit hpos.ne' (by rw [habs]; linarith)) ?_
  have hplace : 971 ≤ lastPlace (limit - halfGreatestUnit) := by
    refine le_lastPlace_of_two_pow_le ?_
    calc (2 : ℚ) ^ ((971 : ℤ) + 52) = 2 ^ 53 * halfGreatestUnit := by
          rw [halfGreatestUnit, ← zpow_natCast, ← zpow_natCast, ← zpow_add₀ two_ne_zero]
          norm_num
      _ ≤ |limit - halfGreatestUnit| := by
          rw [habs, limit_eq_mul]
          linarith
  rw [two_mul_halfGreatestUnit]
  exact zpow_le_zpow_right₀ one_le_two hplace

/-- Halfway between the greatest double and the limit the even neighbour is the limit. -/
theorem round_limit_sub : round (limit - halfGreatestUnit) = limit := by
  have hu := one_le_halfGreatestUnit
  have hdiv : (limit - halfGreatestUnit) / (2 * halfGreatestUnit) = 2 ^ 53 - 1 / 2 := by
    rw [limit_eq_mul, div_eq_iff (by linarith)]
    ring
  have hfloor : ⌊(2 ^ 53 - 1 / 2 : ℚ)⌋ = 2 ^ 53 - 1 := by
    rw [Int.floor_eq_iff]
    norm_num
  have heven : roundEven (2 ^ 53 - 1 / 2) = 2 ^ 53 := by
    unfold roundEven
    rw [Int.fract, hfloor]
    norm_num
  rw [round, unit_limit_sub, hdiv, heven, limit_eq_mul]
  push_cast
  ring

theorem lt_of_round_lt_limit (h : round q < limit) : q < limit - halfGreatestUnit := by
  by_contra hle
  exact h.not_ge (round_limit_sub.symm.trans_le (round_mono (not_lt.mp hle)))

/-! ## Strictly inside -/

theorem nearest_half (hp : OnGrid p) (hlimit : |p| < limit) :
    nearest (1 / 2 * p) = 1 / 2 * p ∨ |p| < 1 := by
  obtain ⟨m, e, hm, he, rfl⟩ := hp
  rcases he.eq_or_lt with rfl | he
  · right
    have hm' : |(m : ℚ)| < 2 ^ 53 := by exact_mod_cast hm
    have hfinest : (0 : ℚ) < 2 ^ (-1074 : ℤ) := zpow_pos two_pos _
    calc |(m : ℚ) * 2 ^ (-1074 : ℤ)| = |(m : ℚ)| * 2 ^ (-1074 : ℤ) := by
          rw [abs_mul, abs_of_pos hfinest]
      _ < 2 ^ 53 * 2 ^ (-1074 : ℤ) := mul_lt_mul_of_pos_right hm' hfinest
      _ = 2 ^ (-1021 : ℤ) := by
          rw [← zpow_natCast, ← zpow_add₀ two_ne_zero]
          norm_num
      _ ≤ 1 := zpow_le_one_of_nonpos₀ one_le_two (by norm_num)
  · left
    refine nearest_eq_self ⟨m, e - 1, hm, by omega, ?_⟩ ?_
    · rw [zpow_sub_one₀ two_ne_zero]
      ring
    · rw [abs_mul, abs_of_pos one_half_pos]
      linarith [abs_nonneg ((m : ℚ) * 2 ^ e)]

/-- If the double of the greater of two numbers overflows and their sum does not, half the sum is
strictly between them. -/
theorem nearest_half_inside {s : ℚ} (hs : OnGrid s) (hsum : s = round (p + q)) (hlimit : |s| < limit)
    (hlow : -limit < p) (hbig : limit / 2 ≤ q) :
    p < nearest (1 / 2 * s) ∧ nearest (1 / 2 * s) < q := by
  have hu := one_le_halfGreatestUnit
  rw [half_limit_eq_mul] at hbig
  have hbelow : p + q < limit - halfGreatestUnit := by
    apply lt_of_round_lt_limit
    rw [← hsum]
    exact (abs_lt.mp hlimit).2
  -- The numbers are farther apart than rounding moves their sum.
  have hfar : halfGreatestUnit < q - p := by
    rw [limit_eq_mul] at hbelow
    linarith
  have hnear : |s - (p + q)| ≤ halfGreatestUnit := by
    rcases eq_or_ne (p + q) 0 with hzero | hzero
    · rw [hsum, hzero, round_zero, sub_zero, abs_zero]
      linarith
    · have hunit := unit_le_of_lt_limit hzero (abs_lt.mpr ⟨by linarith, by linarith⟩)
      rw [hsum]
      linarith [abs_round_sub_le (p + q)]
  obtain ⟨hnear₁, hnear₂⟩ := abs_le.mp hnear
  rcases nearest_half hs hlimit with heq | hsmall
  · rw [heq]
    constructor <;> linarith
  · -- A sum near zero is the sum of numbers far away from it.
    obtain ⟨hsmall₁, hsmall₂⟩ := abs_lt.mp hsmall
    have hone : |(1 : ℚ)| ≤ limit := by
      rw [abs_one]
      exact one_lt_limit.le
    have hge : -1 ≤ nearest (1 / 2 * s) :=
      le_nearest_of_le onGrid_one.neg (by rwa [abs_neg]) (by linarith)
    have hle : nearest (1 / 2 * s) ≤ 1 := nearest_le_of_le onGrid_one hone (by linarith)
    constructor <;> linarith

/-! ## Doubles of doubles -/

theorem isFinite_add_self_iff (ha : a.isFinite) :
    (a + a).isFinite ↔ |position a| < limit / 2 := by
  have hsum := isNearest_add ha ha
  rw [← two_mul] at hsum
  have hgrid := (onGrid_position a).two_mul
  have hlimit : |2 * position a| < limit ↔ |position a| < limit / 2 := by
    rw [abs_mul, abs_two, lt_div_iff₀' two_pos]
  rw [isFinite_iff, hsum.position_eq, ← hlimit]
  constructor
  · rintro ⟨-, hlt⟩
    rwa [nearest_eq_round hlt, round_eq_self hgrid] at hlt
  · intro hlt
    refine ⟨hsum.isNaN_eq, ?_⟩
    rwa [nearest_eq_self hgrid hlt.le]

end CurveSearch.Grid
