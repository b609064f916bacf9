import Mathlib

/-!
# The grid of doubles on the rational line

Every operation on doubles computes an exact rational and rounds it. This module holds the rounding
alone, as a function on rationals: the nearest point of the grid `n * 2 ^ lastPlace q`, a half going
to the even neighbour, and then the cut at `2 ^ 1024`, where the infinities stand. Rounding is
monotone, keeps what is on the grid, is odd, and moves a number by at most half a unit; all later
facts about computed numbers are consequences of these four.
-/

namespace CurveSearch.Grid

/-! ## Rounding to integers -/

/-- The integer nearest to a rational. A half goes to the even neighbour. -/
def roundEven (q : ℚ) : ℤ :=
  if Int.fract q < 1 / 2 then ⌊q⌋
  else if 1 / 2 < Int.fract q then ⌊q⌋ + 1
  else ⌊q⌋ + ⌊q⌋ % 2

@[simp] theorem roundEven_intCast (n : ℤ) : roundEven n = n := by
  simp [roundEven]

theorem floor_le_roundEven (q : ℚ) : ⌊q⌋ ≤ roundEven q := by
  unfold roundEven
  split_ifs <;> omega

theorem roundEven_le_floor_add_one (q : ℚ) : roundEven q ≤ ⌊q⌋ + 1 := by
  unfold roundEven
  split_ifs <;> omega

theorem roundEven_mono {q r : ℚ} (h : q ≤ r) : roundEven q ≤ roundEven r := by
  rcases (Int.floor_le_floor h).eq_or_lt with hfloor | hfloor
  · have hfract : Int.fract q ≤ Int.fract r := by
      rw [Int.fract, Int.fract, hfloor]
      linarith
    unfold roundEven
    rw [hfloor]
    split_ifs <;> first | omega | linarith
  · have hq := roundEven_le_floor_add_one q
    have hr := floor_le_roundEven r
    omega

theorem roundEven_neg (q : ℚ) : roundEven (-q) = -roundEven q := by
  by_cases hq : Int.fract q = 0
  · obtain ⟨n, rfl⟩ := Int.fract_eq_zero_iff.mp hq
    rw [← Int.cast_neg, roundEven_intCast, roundEven_intCast]
  · have hfract : Int.fract (-q) = 1 - Int.fract q := Int.fract_neg hq
    have hfloor : ⌊-q⌋ = -⌊q⌋ - 1 := by
      rw [Int.floor_eq_iff]
      have h₀ := Int.self_sub_floor q
      have h₁ := Int.fract_lt_one q
      have h₂ := (Int.fract_nonneg q).lt_of_ne' hq
      push_cast
      constructor <;> linarith
    unfold roundEven
    rw [hfract, hfloor]
    split_ifs <;> first | omega | linarith

theorem abs_roundEven_sub_le (q : ℚ) : |(roundEven q : ℚ) - q| ≤ 1 / 2 := by
  have hq := Int.self_sub_floor q
  have h₁ := Int.fract_lt_one q
  have h₂ := Int.fract_nonneg q
  rw [abs_le]
  unfold roundEven
  split_ifs with hlt hgt
  · constructor <;> linarith
  · push_cast
    constructor <;> linarith
  · -- The fractional part is a half, so both neighbours are equally near.
    have hhalf : Int.fract q = 1 / 2 := le_antisymm (not_lt.mp hgt) (not_lt.mp hlt)
    rcases Int.emod_two_eq_zero_or_one ⌊q⌋ with hmod | hmod <;> rw [hmod] <;> push_cast <;>
      constructor <;> linarith

/-! ## The last place -/

/-- The exponent of the last binary place that a double around `q` has. -/
def lastPlace (q : ℚ) : ℤ := max (Int.log 2 |q| - 52) (-1074)

def unit (q : ℚ) : ℚ := 2 ^ lastPlace q

theorem unit_pos (q : ℚ) : 0 < unit q := zpow_pos two_pos _

@[simp] theorem lastPlace_neg (q : ℚ) : lastPlace (-q) = lastPlace q := by
  rw [lastPlace, lastPlace, abs_neg]

@[simp] theorem unit_neg (q : ℚ) : unit (-q) = unit q := by
  rw [unit, unit, lastPlace_neg]

theorem neg_1074_le_lastPlace (q : ℚ) : -1074 ≤ lastPlace q := le_max_right _ _

/-- Fifty-three places reach beyond the number. -/
theorem abs_lt_two_pow_lastPlace (q : ℚ) : |q| < 2 ^ (lastPlace q + 53) := by
  have hlog : |q| < ((2 : ℕ) : ℚ) ^ (Int.log 2 |q| + 1) :=
    Int.lt_zpow_succ_log_self one_lt_two |q|
  have hle : Int.log 2 |q| + 1 ≤ lastPlace q + 53 := by
    unfold lastPlace
    omega
  push_cast at hlog
  exact hlog.trans_le (zpow_le_zpow_right₀ one_le_two hle)

theorem two_pow_lastPlace_le_abs {q : ℚ} (hq : q ≠ 0) (h : -1074 < lastPlace q) :
    2 ^ (lastPlace q + 52) ≤ |q| := by
  have hlog : ((2 : ℕ) : ℚ) ^ Int.log 2 |q| ≤ |q| :=
    Int.zpow_log_le_self one_lt_two (abs_pos.mpr hq)
  have heq : lastPlace q + 52 = Int.log 2 |q| := by
    unfold lastPlace at h ⊢
    omega
  rw [heq]
  exact_mod_cast hlog

theorem lastPlace_le_of_abs_lt {q : ℚ} {e : ℤ} (hq : q ≠ 0) (he : -1074 ≤ e)
    (h : |q| < 2 ^ (e + 53)) : lastPlace q ≤ e := by
  have hlog : Int.log 2 |q| < e + 53 :=
    (Int.lt_zpow_iff_log_lt one_lt_two (abs_pos.mpr hq)).mp (by exact_mod_cast h)
  unfold lastPlace
  omega

theorem lastPlace_mono {q r : ℚ} (hq : q ≠ 0) (h : |q| ≤ |r|) : lastPlace q ≤ lastPlace r :=
  lastPlace_le_of_abs_lt hq (neg_1074_le_lastPlace r)
    (h.trans_lt (abs_lt_two_pow_lastPlace r))

/-- A unit is at most a `2 ^ -52` part of the number, or it is the least one of all. -/
theorem unit_le {q : ℚ} (hq : q ≠ 0) : unit q ≤ max (|q| * 2 ^ (-52 : ℤ)) (2 ^ (-1074 : ℤ)) := by
  rcases (neg_1074_le_lastPlace q).eq_or_lt with hleast | hlt
  · exact le_max_of_le_right (by rw [unit, ← hleast])
  · refine le_max_of_le_left ?_
    calc unit q = 2 ^ (lastPlace q + 52) * 2 ^ (-52 : ℤ) := by
          rw [unit, ← zpow_add₀ two_ne_zero]
          congr 1
          ring
      _ ≤ |q| * 2 ^ (-52 : ℤ) :=
          mul_le_mul_of_nonneg_right (two_pow_lastPlace_le_abs hq hlt) (by positivity)

/-! ## Rounding to the grid -/

/-- The point of the grid nearest to a rational; a half goes to the even point. There is no bound
on the exponent. -/
def round (q : ℚ) : ℚ := roundEven (q / unit q) * unit q

@[simp] theorem round_zero : round 0 = 0 := by
  have h : roundEven 0 = 0 := by simpa using roundEven_intCast 0
  simp [round, h]

@[simp] theorem round_neg (q : ℚ) : round (-q) = -round q := by
  rw [round, round, unit_neg, neg_div, roundEven_neg]
  push_cast
  ring

theorem round_le_mul_unit {q : ℚ} {n : ℤ} (h : q ≤ n * unit q) : round q ≤ n * unit q := by
  have hn : roundEven (q / unit q) ≤ n := by
    rw [← roundEven_intCast n]
    exact roundEven_mono ((div_le_iff₀ (unit_pos q)).mpr h)
  exact mul_le_mul_of_nonneg_right (Int.cast_le.mpr hn) (unit_pos q).le

theorem mul_unit_le_round {q : ℚ} {n : ℤ} (h : n * unit q ≤ q) : n * unit q ≤ round q := by
  have hn : n ≤ roundEven (q / unit q) := by
    rw [← roundEven_intCast n]
    exact roundEven_mono ((le_div_iff₀ (unit_pos q)).mpr h)
  exact mul_le_mul_of_nonneg_right (Int.cast_le.mpr hn) (unit_pos q).le

theorem round_nonneg {q : ℚ} (h : 0 ≤ q) : 0 ≤ round q := by
  simpa using mul_unit_le_round (n := 0) (by simpa using h)

theorem two_pow_mul_unit (q : ℚ) (k : ℕ) : (2 ^ k : ℤ) * unit q = 2 ^ (lastPlace q + k) := by
  rw [unit, add_comm, zpow_add₀ two_ne_zero, zpow_natCast]
  push_cast
  ring

/-- Between numbers of different sizes the power of two at which the larger size begins is on both
grids, so no rounding crosses it. -/
theorem round_mono_of_pos {q r : ℚ} (hq : 0 < q) (h : q ≤ r) : round q ≤ round r := by
  have hr : 0 < r := hq.trans_le h
  have habs : |q| ≤ |r| := by rwa [abs_of_pos hq, abs_of_pos hr]
  rcases (lastPlace_mono hq.ne' habs).eq_or_lt with heq | hlt
  · have hunit : unit q = unit r := by rw [unit, unit, heq]
    rw [round, round, hunit]
    refine mul_le_mul_of_nonneg_right (Int.cast_le.mpr (roundEven_mono ?_)) (unit_pos r).le
    exact div_le_div_of_nonneg_right h (unit_pos r).le
  · have hbelow : round q ≤ 2 ^ (lastPlace q + 53) := by
      have hlt := abs_lt_two_pow_lastPlace q
      rw [abs_of_pos hq] at hlt
      simpa using (round_le_mul_unit (n := 2 ^ 53)
        ((two_pow_mul_unit q 53).symm ▸ hlt.le)).trans_eq (two_pow_mul_unit q 53)
    have habove : 2 ^ (lastPlace r + 52) ≤ round r := by
      have hle := two_pow_lastPlace_le_abs hr.ne' ((neg_1074_le_lastPlace q).trans_lt hlt)
      rw [abs_of_pos hr] at hle
      simpa using (two_pow_mul_unit r 52).symm.trans_le (mul_unit_le_round (n := 2 ^ 52)
        ((two_pow_mul_unit r 52).trans_le hle))
    have hmid : (2 : ℚ) ^ (lastPlace q + 53) ≤ 2 ^ (lastPlace r + 52) :=
      zpow_le_zpow_right₀ one_le_two (by omega)
    exact hbelow.trans (hmid.trans habove)

theorem round_mono {q r : ℚ} (h : q ≤ r) : round q ≤ round r := by
  rcases lt_or_ge 0 q with hq | hq
  · exact round_mono_of_pos hq h
  rcases lt_or_ge r 0 with hr | hr
  · have hneg : round (-r) ≤ round (-q) :=
      round_mono_of_pos (neg_pos.mpr hr) (neg_le_neg h)
    rw [round_neg, round_neg] at hneg
    exact neg_le_neg_iff.mp hneg
  · have hneg : 0 ≤ round (-q) := round_nonneg (neg_nonneg.mpr hq)
    rw [round_neg] at hneg
    exact (neg_nonneg.mp hneg).trans (round_nonneg hr)

theorem abs_round_sub_le (q : ℚ) : |round q - q| ≤ unit q / 2 := by
  have hu := unit_pos q
  have heq : round q - q = (roundEven (q / unit q) - q / unit q) * unit q := by
    rw [round]
    field_simp
  rw [heq, abs_mul, abs_of_pos hu]
  have hhalf := abs_roundEven_sub_le (q / unit q)
  calc |(roundEven (q / unit q) : ℚ) - q / unit q| * unit q ≤ 1 / 2 * unit q :=
        mul_le_mul_of_nonneg_right hhalf hu.le
    _ = unit q / 2 := by ring

/-! ## Points of the grid -/

/-- A number with at most fifty-three binary places, none below the least place. -/
def OnGrid (x : ℚ) : Prop :=
  ∃ m e : ℤ, |m| < 2 ^ 53 ∧ -1074 ≤ e ∧ x = m * 2 ^ e

theorem onGrid_zero : OnGrid 0 := ⟨0, 0, by norm_num, by norm_num, by simp⟩

theorem OnGrid.neg {x : ℚ} (h : OnGrid x) : OnGrid (-x) := by
  obtain ⟨m, e, hm, he, rfl⟩ := h
  exact ⟨-m, e, by rwa [abs_neg], he, by push_cast; ring⟩

theorem OnGrid.two_mul {x : ℚ} (h : OnGrid x) : OnGrid (2 * x) := by
  obtain ⟨m, e, hm, he, rfl⟩ := h
  refine ⟨m, e + 1, hm, by omega, ?_⟩
  rw [zpow_add₀ two_ne_zero]
  ring

theorem onGrid_two_pow {e : ℤ} (he : -1074 ≤ e) : OnGrid (2 ^ e) :=
  ⟨1, e, by norm_num, he, by simp⟩

theorem onGrid_two_pow_nat (k : ℕ) : OnGrid (2 ^ k) := by
  rw [← zpow_natCast]
  exact onGrid_two_pow (by omega)

theorem onGrid_natCast {n : ℕ} (hn : n ≤ 2 ^ 53) : OnGrid n := by
  rcases hn.lt_or_eq with hlt | rfl
  · exact ⟨n, 0, by rw [Nat.abs_cast]; exact_mod_cast hlt, by norm_num, by simp⟩
  · exact_mod_cast onGrid_two_pow_nat 53

theorem onGrid_one : OnGrid 1 := by
  simpa using onGrid_two_pow_nat 0

theorem OnGrid.exists_mul_unit {x : ℚ} (h : OnGrid x) : ∃ n : ℤ, x = n * unit x := by
  obtain ⟨m, e, hm, he, hx⟩ := h
  by_cases hzero : x = 0
  · exact ⟨0, by simp [hzero]⟩
  have hpow : (0 : ℚ) < 2 ^ e := zpow_pos two_pos e
  have hplace : lastPlace x ≤ e := by
    refine lastPlace_le_of_abs_lt hzero he ?_
    rw [hx, abs_mul, abs_of_pos hpow, add_comm, zpow_add₀ two_ne_zero]
    refine mul_lt_mul_of_pos_right ?_ hpow
    exact_mod_cast hm
  have hsplit : (2 : ℚ) ^ e = 2 ^ (e - lastPlace x).toNat * unit x := by
    rw [unit, ← zpow_natCast, ← zpow_add₀ two_ne_zero]
    congr 1
    omega
  refine ⟨m * 2 ^ (e - lastPlace x).toNat, ?_⟩
  calc x = m * 2 ^ e := hx
    _ = m * (2 ^ (e - lastPlace x).toNat * unit x) := by rw [hsplit]
    _ = (m * 2 ^ (e - lastPlace x).toNat : ℤ) * unit x := by
        push_cast
        ring

theorem round_eq_self {x : ℚ} (h : OnGrid x) : round x = x := by
  obtain ⟨n, hn⟩ := h.exists_mul_unit
  have hdiv : x / unit x = n := by
    rw [div_eq_iff (unit_pos x).ne']
    exact hn
  rw [round, hdiv, roundEven_intCast]
  exact hn.symm

theorem round_le_of_le {q x : ℚ} (hx : OnGrid x) (h : q ≤ x) : round q ≤ x :=
  (round_mono h).trans_eq (round_eq_self hx)

theorem le_round_of_le {q x : ℚ} (hx : OnGrid x) (h : x ≤ q) : x ≤ round q :=
  (round_eq_self hx).symm.trans_le (round_mono h)

/-! ## The cut at the infinities -/

/-- Where the infinities stand. Every finite double is smaller in absolute value. -/
def limit : ℚ := 2 ^ 1024

theorem limit_pos : 0 < limit := by
  unfold limit
  positivity

theorem two_pow_lt_limit {k : ℕ} (hk : k < 1024) : (2 : ℚ) ^ k < limit :=
  pow_lt_pow_right₀ one_lt_two hk

theorem one_lt_limit : 1 < limit := by
  simpa using two_pow_lt_limit (k := 0) (by norm_num)

/-- A number, or the infinity on its side if it is too large. -/
def saturate (q : ℚ) : ℚ := max (-limit) (min limit q)

theorem saturate_mono {q r : ℚ} (h : q ≤ r) : saturate q ≤ saturate r :=
  max_le_max le_rfl (min_le_min le_rfl h)

theorem saturate_neg (q : ℚ) : saturate (-q) = -saturate q := by
  have hlimit := limit_pos
  unfold saturate
  rcases le_total q (-limit) with hlow | hlow <;> rcases le_total limit q with hhigh | hhigh <;>
    simp only [max_def, min_def] <;> split_ifs <;> linarith

theorem saturate_of_abs_le {q : ℚ} (h : |q| ≤ limit) : saturate q = q := by
  obtain ⟨hlow, hhigh⟩ := abs_le.mp h
  rw [saturate, min_eq_right hhigh, max_eq_right hlow]

theorem saturate_of_abs_lt {q : ℚ} (h : |saturate q| < limit) : saturate q = q := by
  obtain ⟨hlow, hhigh⟩ := abs_lt.mp h
  have hmin : min limit q < limit := (le_max_right _ _).trans_lt hhigh
  have hq : min limit q = q := min_eq_right ((min_lt_iff.mp hmin).resolve_left (lt_irrefl _)).le
  unfold saturate at hlow ⊢
  rw [hq] at hlow ⊢
  exact max_eq_right ((lt_max_iff.mp hlow).resolve_left (lt_irrefl _)).le

/-- The position of the double nearest to a rational. -/
def nearest (q : ℚ) : ℚ := saturate (round q)

theorem nearest_mono {q r : ℚ} (h : q ≤ r) : nearest q ≤ nearest r :=
  saturate_mono (round_mono h)

@[simp] theorem nearest_zero : nearest 0 = 0 := by
  rw [nearest, round_zero]
  exact saturate_of_abs_le (by simpa using limit_pos.le)

@[simp] theorem nearest_neg (q : ℚ) : nearest (-q) = -nearest q := by
  rw [nearest, round_neg, saturate_neg, nearest]

@[simp] theorem nearest_one : nearest 1 = 1 := by
  rw [nearest, round_eq_self onGrid_one]
  exact saturate_of_abs_le (by simpa using one_lt_limit.le)

theorem nearest_eq_self {x : ℚ} (hx : OnGrid x) (hle : |x| ≤ limit) : nearest x = x := by
  rw [nearest, round_eq_self hx, saturate_of_abs_le hle]

theorem nearest_nonneg {q : ℚ} (h : 0 ≤ q) : 0 ≤ nearest q :=
  nearest_zero.symm.trans_le (nearest_mono h)

theorem nearest_le_of_le {q x : ℚ} (hx : OnGrid x) (hle : |x| ≤ limit) (h : q ≤ x) :
    nearest q ≤ x :=
  (nearest_mono h).trans_eq (nearest_eq_self hx hle)

theorem le_nearest_of_le {q x : ℚ} (hx : OnGrid x) (hle : |x| ≤ limit) (h : x ≤ q) :
    x ≤ nearest q :=
  (nearest_eq_self hx hle).symm.trans_le (nearest_mono h)

/-- Without overflow the cut changes nothing. -/
theorem nearest_eq_round {q : ℚ} (h : |nearest q| < limit) : nearest q = round q :=
  saturate_of_abs_lt h

theorem abs_nearest_sub_le {q : ℚ} (h : |nearest q| < limit) : |nearest q - q| ≤ unit q / 2 := by
  rw [nearest_eq_round h]
  exact abs_round_sub_le q

end CurveSearch.Grid
