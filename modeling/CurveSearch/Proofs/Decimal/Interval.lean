import CurveSearch.Decimal.Shortest
import CurveSearch.Proofs.Binary64.Nearest

/-!
# The rounding interval of a double

The shortest decimal of a double is looked for on one decimal grid after the other, and a point is
taken only if it lies in the rounding interval. The last grid contains the double itself, so the
search never ends with a point outside. A number inside the interval is rounded to the double.
-/

namespace CurveSearch.Decimal

open Grid

/-- A number lies in the rounding interval of `m * 2 ^ q`. The ends belong to it if `m` is even. -/
structure Names (m : ℕ) (q : ℤ) (x : ℚ) : Prop where
  lower_le : (m - lowerGap m q / 4) * 2 ^ q ≤ x
  le_upper : x ≤ (m + 1 / 2) * 2 ^ q
  lower_lt : m % 2 = 1 → (m - lowerGap m q / 4) * 2 ^ q < x
  lt_upper : m % 2 = 1 → x < (m + 1 / 2) * 2 ^ q

variable {m : ℕ} {q : ℤ} {x : ℚ}

theorem lowerGap_pos (m : ℕ) (q : ℤ) : 0 < lowerGap m q := by
  unfold lowerGap
  split_ifs <;> decide

theorem lowerGap_le_two (m : ℕ) (q : ℤ) : lowerGap m q ≤ 2 := by
  unfold lowerGap
  split_ifs <;> decide

theorem Names.of_exact (m : ℕ) (q : ℤ) : Names m q (m * 2 ^ q) := by
  have hpow : (0 : ℚ) < 2 ^ q := zpow_pos two_pos q
  have hgap : (0 : ℚ) < lowerGap m q := by exact_mod_cast lowerGap_pos m q
  have hlower : ((m : ℚ) - lowerGap m q / 4) * 2 ^ q < m * 2 ^ q :=
    mul_lt_mul_of_pos_right (by linarith) hpow
  have hupper : (m : ℚ) * 2 ^ q < (m + 1 / 2) * 2 ^ q :=
    mul_lt_mul_of_pos_right (by linarith) hpow
  exact ⟨hlower.le, hupper.le, fun _ ↦ hlower, fun _ ↦ hupper⟩

theorem Names.pos (h : Names m q x) (hm : 0 < m) : 0 < x := by
  have hm₁ : (1 : ℚ) ≤ m := by exact_mod_cast hm
  have hgap : (lowerGap m q : ℚ) ≤ 2 := by exact_mod_cast lowerGap_le_two m q
  exact (mul_pos (by linarith) (zpow_pos two_pos q)).trans_le h.lower_le

/-! ## Rounding -/

theorem roundEven_eq_of_abs_sub_le {y : ℚ} {n : ℤ} (h : |y - n| ≤ 1 / 2)
    (hodd : n % 2 = 1 → |y - n| < 1 / 2) : roundEven y = n := by
  obtain ⟨hlow, hhigh⟩ := abs_le.mp h
  rcases le_or_gt (n : ℚ) y with hle | hlt
  · have hfloor : ⌊y⌋ = n := Int.floor_eq_iff.mpr ⟨hle, by linarith⟩
    have hfract : Int.fract y = y - n := by rw [Int.fract, hfloor]
    unfold roundEven
    rw [hfract, hfloor]
    split_ifs with hless hmore
    · rfl
    · linarith
    · have heven : n % 2 ≠ 1 := by
        intro hn
        exact hless ((le_abs_self _).trans_lt (hodd hn))
      omega
  · have hfloor : ⌊y⌋ = n - 1 := by
      rw [Int.floor_eq_iff]
      push_cast
      constructor <;> linarith
    have hfract : Int.fract y = y - n + 1 := by
      rw [Int.fract, hfloor]
      push_cast
      ring
    unfold roundEven
    rw [hfract, hfloor]
    split_ifs with hless hmore
    · linarith
    · ring
    · have heven : n % 2 ≠ 1 := by
        intro hn
        have habs := neg_abs_le (y - n)
        have hstrict := hodd hn
        linarith
      omega

theorem round_eq_of_lastPlace {n : ℤ} (hplace : lastPlace x = q) (h : |x / 2 ^ q - n| ≤ 1 / 2)
    (hodd : n % 2 = 1 → |x / 2 ^ q - n| < 1 / 2) : Grid.round x = n * 2 ^ q := by
  rw [Grid.round, Grid.unit, hplace, roundEven_eq_of_abs_sub_le h hodd]

theorem Names.round_eq_of_lastPlace (h : Names m q x) (hplace : lastPlace x = q) :
    Grid.round x = m * 2 ^ q := by
  have hpow : (0 : ℚ) < 2 ^ q := zpow_pos two_pos q
  have hgap : (lowerGap m q : ℚ) ≤ 2 := by exact_mod_cast lowerGap_le_two m q
  have hlower : (m : ℚ) - lowerGap m q / 4 ≤ x / 2 ^ q := (le_div_iff₀ hpow).mpr h.lower_le
  have hupper : x / 2 ^ q ≤ m + 1 / 2 := (div_le_iff₀ hpow).mpr h.le_upper
  have hround : Grid.round x = (m : ℤ) * 2 ^ q := by
    apply Decimal.round_eq_of_lastPlace hplace
    · rw [abs_le, Int.cast_natCast]
      constructor <;> linarith
    · intro hodd
      have hlower := (lt_div_iff₀ hpow).mpr (h.lower_lt (by omega))
      have hupper := (div_lt_iff₀ hpow).mpr (h.lt_upper (by omega))
      rw [abs_lt, Int.cast_natCast]
      constructor <;> linarith
  rwa [Int.cast_natCast] at hround

/-- Just below a power of two a number is rounded up to it, from a unit half as large. -/
theorem round_eq_two_pow (hq : -1074 < q) (hlower : (2 ^ 52 - 1 / 4) * 2 ^ q ≤ x)
    (hupper : x < 2 ^ 52 * 2 ^ q) : Grid.round x = 2 ^ 52 * 2 ^ q := by
  have hpow : (0 : ℚ) < 2 ^ (q - 1) := zpow_pos two_pos _
  have hhalf : (2 : ℚ) ^ q = 2 * 2 ^ (q - 1) := by
    rw [← zpow_one_add₀ two_ne_zero]
    congr 1
    ring
  rw [hhalf] at hlower hupper ⊢
  have hpos : 0 < x := by
    refine lt_of_lt_of_le ?_ hlower
    positivity
  have hplace : lastPlace x = q - 1 := by
    apply le_antisymm
    · apply lastPlace_le_of_abs_lt hpos.ne' (by omega)
      rw [abs_of_pos hpos, add_comm, zpow_add₀ two_ne_zero]
      refine hupper.trans_eq ?_
      norm_num
      ring
    · apply le_lastPlace_of_two_pow_le
      rw [abs_of_pos hpos, add_comm, zpow_add₀ two_ne_zero]
      refine le_trans ?_ hlower
      norm_num
      linarith
  have hbelow : (2 : ℚ) ^ 53 - 1 / 2 ≤ x / 2 ^ (q - 1) := by
    rw [le_div_iff₀ hpow]
    linarith
  have habove : x / 2 ^ (q - 1) ≤ 2 ^ 53 := by
    rw [div_le_iff₀ hpow]
    linarith
  have hround := Decimal.round_eq_of_lastPlace (n := 2 ^ 53) hplace
    (by
      rw [abs_le]
      push_cast
      constructor <;> linarith)
    (by norm_num)
  rw [hround]
  push_cast
  ring

theorem Names.round_eq (h : Names m q x) (hm : 0 < m) (hlt : m < 2 ^ 53) (hq : -1074 ≤ q)
    (hmq : q = -1074 ∨ 2 ^ 52 ≤ m) : Grid.round x = m * 2 ^ q := by
  have hpow : (0 : ℚ) < 2 ^ q := zpow_pos two_pos q
  have hpos : 0 < x := h.pos hm
  have hm₁ : (m : ℚ) + 1 ≤ 2 ^ 53 := by exact_mod_cast hlt
  have hplace : lastPlace x ≤ q := by
    apply lastPlace_le_of_abs_lt hpos.ne' hq
    rw [abs_of_pos hpos, add_comm, zpow_add₀ two_ne_zero]
    calc x ≤ (m + 1 / 2) * 2 ^ q := h.le_upper
      _ < 2 ^ 53 * 2 ^ q := mul_lt_mul_of_pos_right (by linarith) hpow
      _ = 2 ^ (53 : ℤ) * 2 ^ q := by norm_cast
  rcases hplace.eq_or_lt with heq | hless
  · exact h.round_eq_of_lastPlace heq
  · -- Only below a power of two does the interval reach into the binade below.
    have hleast : -1074 < q := (neg_1074_le_lastPlace x).trans_lt hless
    have hbig : 2 ^ 52 ≤ m := hmq.resolve_left hleast.ne'
    have hupper : x < 2 ^ 52 * 2 ^ q := by
      by_contra hge
      refine hless.not_ge (le_lastPlace_of_two_pow_le ?_)
      rw [abs_of_pos hpos, add_comm, zpow_add₀ two_ne_zero]
      exact_mod_cast not_lt.mp hge
    have hgap : (lowerGap m q : ℚ) ≤ 2 := by exact_mod_cast lowerGap_le_two m q
    have hcut : (m : ℚ) - lowerGap m q / 4 < 2 ^ 52 :=
      lt_of_mul_lt_mul_right (h.lower_le.trans_lt hupper) hpow.le
    obtain rfl : m = 2 ^ 52 := by
      have hm₂ : (m : ℚ) < 2 ^ 52 + 1 := by linarith
      have hm₃ : m < 2 ^ 52 + 1 := by exact_mod_cast hm₂
      omega
    have hone : lowerGap (2 ^ 52) q = 1 := if_pos ⟨rfl, hleast⟩
    have hlower := h.lower_le
    rw [hone] at hlower
    push_cast at hlower ⊢
    exact round_eq_two_pow hleast hlower hupper

/-! ## The search over the grids -/

/-- One factor clears the powers of two and ten from both sides of a comparison. -/
theorem exists_scale (q e : ℤ) :
    ∃ s : ℚ, 0 < s ∧ (∀ n : ℕ, ((n * quarter q e : ℕ) : ℚ) = s * (n / 4 * 2 ^ q)) ∧
      ∀ d : ℕ, ((d * gridStep q e : ℕ) : ℚ) = s * (d * 10 ^ e) := by
  refine ⟨2 ^ (2 - q).toNat * 10 ^ (-e).toNat, by positivity, ?_, ?_⟩
  · intro n
    have hpow : (2 : ℚ) ^ (q - 2).toNat = 2 ^ (2 - q).toNat * (2 ^ q / 4) := by
      have hfour : (4 : ℚ) = 2 ^ (2 : ℤ) := by norm_num
      rw [← zpow_natCast, ← zpow_natCast, hfour, ← zpow_sub₀ two_ne_zero, ← zpow_add₀ two_ne_zero]
      congr 1
      omega
    unfold quarter
    simp only [Nat.pow_eq]
    push_cast
    rw [hpow]
    ring
  · intro d
    have hpow : (10 : ℚ) ^ e.toNat = 10 ^ (-e).toNat * 10 ^ e := by
      have hten : (10 : ℚ) ≠ 0 := by norm_num
      rw [← zpow_natCast, ← zpow_natCast, ← zpow_add₀ hten]
      congr 1
      omega
    unfold gridStep
    simp only [Nat.pow_eq]
    push_cast
    rw [hpow]
    ring

theorem mul_quarter_le_iff (n d : ℕ) (q e : ℤ) :
    n * quarter q e ≤ d * gridStep q e ↔ (n : ℚ) / 4 * 2 ^ q ≤ d * 10 ^ e := by
  obtain ⟨s, hs, hquarter, hstep⟩ := exists_scale q e
  rw [← @Nat.cast_le ℚ, hquarter, hstep]
  exact mul_le_mul_iff_right₀ hs

theorem le_mul_quarter_iff (n d : ℕ) (q e : ℤ) :
    d * gridStep q e ≤ n * quarter q e ↔ (d : ℚ) * 10 ^ e ≤ n / 4 * 2 ^ q := by
  obtain ⟨s, hs, hquarter, hstep⟩ := exists_scale q e
  rw [← @Nat.cast_le ℚ, hquarter, hstep]
  exact mul_le_mul_iff_right₀ hs

/-- The test with natural numbers decides whether a decimal lies in the rounding interval. -/
theorem Names.of_roundsTo {d : ℕ} {e : ℤ} (hm : 0 < m) (h : roundsTo m q d e = true) :
    Names m q (d * 10 ^ e) := by
  have hgap : lowerGap m q ≤ 4 * m := by
    have := lowerGap_le_two m q
    omega
  have hlower : ((4 * m - lowerGap m q : ℕ) : ℚ) / 4 * 2 ^ q = (m - lowerGap m q / 4) * 2 ^ q := by
    push_cast [hgap]
    ring
  have hupper : ((4 * m + 2 : ℕ) : ℚ) / 4 * 2 ^ q = (m + 1 / 2) * 2 ^ q := by
    push_cast
    ring
  have hle := mul_quarter_le_iff (4 * m - lowerGap m q) d q e
  have hge := le_mul_quarter_iff (4 * m + 2) d q e
  have hlt := (le_mul_quarter_iff (4 * m - lowerGap m q) d q e).not
  have hgt := (mul_quarter_le_iff (4 * m + 2) d q e).not
  rw [not_le, not_le, hlower] at hlt
  rw [not_le, not_le, hupper] at hgt
  rw [hlower] at hle
  rw [hupper] at hge
  unfold roundsTo at h
  simp only at h
  split_ifs at h with heven
  · obtain ⟨h₁, h₂⟩ := of_decide_eq_true h
    exact ⟨hle.mp h₁, hge.mp h₂, by omega, by omega⟩
  · obtain ⟨h₁, h₂⟩ := of_decide_eq_true h
    exact ⟨(hlt.mp h₁).le, (hgt.mp h₂).le, fun _ ↦ hlt.mp h₁, fun _ ↦ hgt.mp h₂⟩

theorem roundDiv_eq_or (tie : Tie) (num den : ℕ) :
    roundDiv tie num den = num / den ∨ roundDiv tie num den = num / den + 1 := by
  unfold roundDiv
  simp only
  split_ifs
  · exact .inl rfl
  · exact .inr rfl
  · cases tie
    · rcases Nat.mod_two_eq_zero_or_one (num / den) with hmod | hmod <;> simp [hmod]
    · exact .inr rfl

theorem roundsTo_of_onGrid? {tie : Tie} {d : ℕ} {e : ℤ} (h : onGrid? tie m q e = some d) :
    roundsTo m q d e = true := by
  unfold onGrid? at h
  simp only at h
  split at h
  · next hbelow habove =>
      obtain rfl := Option.some.inj h
      rcases roundDiv_eq_or tie (4 * m * quarter q e) (gridStep q e) with hround | hround
      · rwa [nearestOnGrid, hround]
      · rwa [nearestOnGrid, hround]
  · next hbelow habove =>
      obtain rfl := Option.some.inj h
      exact hbelow
  · next hbelow habove =>
      obtain rfl := Option.some.inj h
      exact habove
  · cases h

theorem nearestOnGrid_eq_of_exact (tie : Tie) {n : ℕ} {e : ℤ}
    (h : (n : ℚ) * 10 ^ e = m * 2 ^ q) : nearestOnGrid tie m q e = n := by
  obtain ⟨s, hs, hquarter, hstep⟩ := exists_scale q e
  have hexact : 4 * m * quarter q e = n * gridStep q e := by
    have hcast : ((4 * m * quarter q e : ℕ) : ℚ) = (n * gridStep q e : ℕ) := by
      rw [hquarter, hstep, h]
      push_cast
      ring
    exact_mod_cast hcast
  have hpos : 0 < gridStep q e := Nat.mul_pos (Nat.pow_pos two_pos) (Nat.pow_pos (by decide))
  rw [nearestOnGrid, hexact, roundDiv_mul_right tie n hpos]

/-- The grid on which the search ends contains the double. -/
theorem exists_exact (m : ℕ) (q : ℤ) : ∃ n : ℕ, (n : ℚ) * 10 ^ min q 0 = m * 2 ^ q := by
  rcases le_total 0 q with hq | hq
  · refine ⟨m * 2 ^ q.toNat, ?_⟩
    rw [min_eq_right hq, zpow_zero, mul_one]
    push_cast
    rw [← zpow_natCast, Int.toNat_of_nonneg hq]
  · refine ⟨m * 5 ^ (-q).toNat, ?_⟩
    have hfive : (5 : ℚ) ^ (-q).toNat * 5 ^ q = 1 := by
      rw [← zpow_natCast, ← zpow_add₀ (by norm_num), Int.toNat_of_nonneg (by omega),
        neg_add_cancel, zpow_zero]
    have hten : (10 : ℚ) ^ q = 5 ^ q * 2 ^ q := by
      rw [← mul_zpow]
      norm_num
    rw [min_eq_left hq, hten]
    push_cast
    linear_combination (m : ℚ) * 2 ^ q * hfive

theorem Names.of_refineGrid (tie : Tie) (hm : 0 < m) (steps : ℕ) {e : ℤ}
    (he : e - steps = min q 0) :
    Names m q ((refineGrid tie m q steps e).coefficient *
      10 ^ (refineGrid tie m q steps e).exponent) := by
  induction steps generalizing e with
  | zero =>
      obtain ⟨n, hn⟩ := exists_exact m q
      obtain rfl : e = min q 0 := by simpa using he
      rw [refineGrid, nearestOnGrid_eq_of_exact tie hn, hn]
      exact Names.of_exact m q
  | succ steps ih =>
      rw [refineGrid]
      split
      · next d hd => exact Names.of_roundsTo hm (roundsTo_of_onGrid? hd)
      · apply ih
        push_cast at he
        omega

theorem min_le_powerAbove (b : ℤ) : min b 0 ≤ powerAbove b := by
  unfold powerAbove
  split_ifs <;> omega

theorem Names.of_shortest (tie : Tie) (hm : 0 < m) (q : ℤ) :
    Names m q ((shortest tie m q).coefficient * 10 ^ (shortest tie m q).exponent) := by
  have habove := min_le_powerAbove (q + m.log2 + 1)
  unfold shortest
  rw [if_neg hm.ne']
  apply Names.of_refineGrid tie hm
  omega

end CurveSearch.Decimal
