import CurveSearch.Proofs.Binary64.RelativeError
import CurveSearch.Proofs.Cursor

/-!
# The number of samples

A window says how many samples a scan of it takes: the number of steps from the start to the end,
rounded up. The quotient is computed with rounding errors of its own, so this bounds the scan only
where the cursor after that many steps has passed the end.
-/

namespace CurveSearch.Window

open Grid

variable {v w : Window} {i j : ℕ}

/-- The distance between the ends, in steps, as computed. -/
def span (w : Window) : Float := (w.max - w.start) / w.step

theorem sampleCount_eq (hw : w.isValid) :
    w.sampleCount = if w.max ≤ w.start then 0
      else if w.span.isFinite then min ⌈position w.span⌉.toNat (2 ^ 64 - 1) else 2 ^ 64 - 1 := by
  unfold sampleCount
  rw [hw]
  simp only [Bool.not_true, Bool.false_or, decide_eq_true_eq]
  split_ifs with hle hfin
  · rfl
  · unfold span at hfin ⊢
    rw [ceil?_of_isFinite hfin]
    rfl
  · unfold span at hfin
    rw [ceil?_of_not_isFinite hfin]
    rfl

theorem isNearest_width (hw : w.isValid) :
    IsNearest (w.max - w.start) (position w.max - position w.start) :=
  isNearest_sub (isValid_iff.mp hw).2.1 (isValid_iff.mp hw).1

theorem isNearest_span (hw : w.isValid) (h : (w.max - w.start).isFinite) :
    IsNearest w.span (position (w.max - w.start) / position w.step) :=
  isNearest_div h (isValid_iff.mp hw).2.2.1 (position_step_pos hw).ne'

theorem span_le_of_resumes (hv : v.isValid) (hw : w.isValid) (h : v.Resumes w)
    (hlt : v.start ≤ v.max) (hfin : w.span.isFinite) :
    v.span.isFinite ∧ position v.span ≤ position w.span := by
  have hwidth := isNearest_width hw
  have hwidth' := isNearest_width hv
  have hwfin := isFinite_of_div hfin
  have hle : position (v.max - v.start) ≤ position (w.max - w.start) := by
    rw [hwidth.position_eq, hwidth'.position_eq, h.max_eq]
    exact nearest_mono (sub_le_sub_left (le_iff.mp h.start_le).2.2 _)
  have hnonneg : 0 ≤ position (v.max - v.start) := by
    rw [hwidth'.position_eq]
    exact nearest_nonneg (sub_nonneg.mpr (le_iff.mp hlt).2.2)
  have hvfin : (v.max - v.start).isFinite := by
    refine isFinite_iff.mpr ⟨hwidth'.isNaN_eq, (abs_le_abs_of_nonneg hnonneg hle).trans_lt ?_⟩
    exact abs_position_lt hwfin
  have hspan := isNearest_span hv hvfin
  have hstep := position_step_pos hv
  have hquot : 0 ≤ position v.span := by
    rw [hspan.position_eq]
    exact nearest_nonneg (div_nonneg hnonneg hstep.le)
  have hspanle : position v.span ≤ position w.span := by
    rw [hspan.position_eq, (isNearest_span hw hwfin).position_eq, h.step_eq]
    exact nearest_mono (div_le_div_of_nonneg_right hle (h.step_eq ▸ hstep.le))
  refine ⟨isFinite_iff.mpr ⟨hspan.isNaN_eq, ?_⟩, hspanle⟩
  exact (abs_le_abs_of_nonneg hquot hspanle).trans_lt (abs_position_lt hfin)

/-- A window that goes on with another one needs no more samples. -/
theorem sampleCount_le_of_resumes (hv : v.isValid) (hw : w.isValid) (h : v.Resumes w) :
    v.sampleCount ≤ w.sampleCount := by
  rw [sampleCount_eq hv, sampleCount_eq hw]
  by_cases hvend : v.max ≤ v.start
  · rw [if_pos hvend]
    exact Nat.zero_le _
  have hwend : ¬ w.max ≤ w.start := fun hle ↦
    hvend (h.max_eq ▸ Grid.le_trans hle h.start_le)
  rw [if_neg hvend, if_neg hwend]
  by_cases hwfin : w.span.isFinite
  · have hlt : v.start < v.max := (not_le_iff (isNaN_of_isFinite (isValid_iff.mp hv).2.1)
      (isNaN_of_isFinite (isValid_iff.mp hv).1)).mp hvend
    obtain ⟨hvfin, hspan⟩ := span_le_of_resumes hv hw h (Grid.le_of_lt hlt) hwfin
    rw [if_pos hwfin, if_pos hvfin]
    exact min_le_min (Int.toNat_le_toNat (Int.ceil_le_ceil hspan)) le_rfl
  · rw [if_neg hwfin]
    split_ifs
    · exact min_le_right _ _
    · exact le_rfl

/-! ## Windows with a coarse step -/

def size (w : Window) : ℚ := |position w.start| ⊔ |position w.max|

theorem abs_ends_le_size (w : Window) : |position w.start| ≤ w.size ∧ |position w.max| ≤ w.size :=
  ⟨le_sup_left, le_sup_right⟩

theorem width_le_size (w : Window) : position w.max - position w.start ≤ 2 * w.size := by
  obtain ⟨hstart, hmax⟩ := w.abs_ends_le_size
  linarith [neg_abs_le (position w.start), le_abs_self (position w.max)]

theorem abs_position_le_size {s : Float} (h₁ : w.start ≤ s) (h₂ : s ≤ w.max) :
    |position s| ≤ w.size := by
  obtain ⟨-, -, h₁⟩ := le_iff.mp h₁
  obtain ⟨-, -, h₂⟩ := le_iff.mp h₂
  exact abs_le_max_abs_abs h₁ h₂

theorem lt_add_step {s : Float} (hw : w.isValid) (hs : s.isFinite)
    (h : |position s| * 2 ^ (-52 : ℤ) ≤ position w.step) : s < s + w.step := by
  have hsum := isNearest_add hs (isValid_iff.mp hw).2.2.1
  have hstep := position_step_pos hw
  refine lt_iff.mpr ⟨isNaN_of_isFinite hs, hsum.isNaN_eq, ?_⟩
  rw [hsum.position_eq]
  refine lt_nearest (abs_position_lt hs)
    ((onGrid_position s).fine.add (onGrid_position w.step).fine) ?_
  rw [add_sub_cancel_left]
  norm_num at h ⊢
  linarith

theorem resolved_of_size_le (hw : w.isValid) (h : w.size * 2 ^ (-52 : ℤ) ≤ position w.step) :
    w.Resolved := by
  intro s h₁ h₂
  have hs := isFinite_of_le_of_le (isValid_iff.mp hw).1 (isValid_iff.mp hw).2.1 h₁ h₂
  refine lt_add_step hw hs (le_trans ?_ h)
  exact mul_le_mul_of_nonneg_right (abs_position_le_size h₁ h₂) (zpow_pos two_pos _).le

/-- An index whose product with the step is well beyond the width of the window: the cursor is
beyond the end. -/
theorem max_lt_cursor (hw : w.isValid) (hsize : w.size * 2 ^ (-50 : ℤ) ≤ position w.step)
    (hi : i ≤ 2 ^ 53)
    (h : position w.max - position w.start + 5 / 12 * position w.step ≤ i * position w.step) :
    w.max < w.cursor i := by
  obtain ⟨hstart, hmax, -, -⟩ := isValid_iff.mp hw
  have hstep := position_step_pos hw
  have hstride := isNearest_stride hw i
  have hindex : position (UInt64.ofNat i).toFloat = i := by
    have hgrid : OnGrid (i : ℚ) := onGrid_natCast hi
    rw [(isNearest_index (by omega)).position_eq]
    exact nearest_eq_self hgrid (by
      rw [abs_of_nonneg (Nat.cast_nonneg i)]
      exact le_trans (by exact_mod_cast hi) (two_pow_lt_limit (k := 53) (by norm_num)).le)
  rw [hindex] at hstride
  refine lt_iff.mpr ⟨isNaN_of_isFinite hmax, isNaN_cursor hw i, ?_⟩
  obtain ⟨-, ⟨hfin, hcursor⟩ | ⟨-, hcursor⟩⟩ := add_nonneg_cases hstart (stride_nonneg hw i)
  · rw [cursor_eq, hcursor]
    refine lt_nearest (abs_position_lt hmax)
      ((onGrid_position w.start).fine.add (onGrid_position _).fine) ?_
    have hlt := abs_position_lt hfin
    rw [hstride.position_eq] at hlt ⊢
    rw [nearest_eq_round hlt]
    have hprod : 0 ≤ (i : ℚ) * position w.step := mul_nonneg (Nat.cast_nonneg i) hstep.le
    have herr := (abs_le.mp (abs_round_sub_le_mul ((onGrid_position w.step).fine.natCast_mul i))).1
    rw [abs_of_nonneg hprod] at herr
    obtain ⟨hstart', hmax'⟩ := w.abs_ends_le_size
    norm_num at hsize herr ⊢
    linarith [neg_abs_le (position w.start), le_abs_self (position w.max)]
  · rw [cursor_eq, hcursor]
    exact (abs_lt.mp (abs_position_lt hmax)).2

/-- The index of the cursor after the last sample that the window says a scan takes, unless it is
beyond the indices of sixty-four bits. -/
def lastIndex (w : Window) : ℕ := min (w.sampleCount + 1) (2 ^ 64 - 2)

/-- The difference of the ends is exact up to a quarter of a step. -/
theorem abs_width_sub_le (hw : w.isValid) (hsize : w.size * 2 ^ (-50 : ℤ) ≤ position w.step)
    (hlt : w.start < w.max) (hfin : (w.max - w.start).isFinite) :
    |position (w.max - w.start) - (position w.max - position w.start)| ≤ position w.step / 4 := by
  have hwidth := (isNearest_width hw).position_eq
  have hlimit := abs_position_lt hfin
  rw [hwidth] at hlimit ⊢
  rw [nearest_eq_round hlimit]
  refine (abs_round_sub_le_mul
    ((onGrid_position w.max).fine.sub (onGrid_position w.start).fine)).trans ?_
  rw [abs_of_pos (sub_pos.mpr (lt_iff.mp hlt).2.2)]
  have hsize' := w.width_le_size
  norm_num at hsize ⊢
  linarith

theorem nearest_quotient {q : ℚ} (hq : 0 ≤ q) (hle : q ≤ 2 ^ 51 + 1 / 2)
    (hlimit : |nearest q| < limit) : |nearest q - q| ≤ 1 / 3 ∧ nearest q ≤ 2 ^ 51 + 1 := by
  constructor
  · rcases eq_or_ne q 0 with rfl | hne
    · rw [nearest_zero, sub_zero, abs_zero]
      norm_num
    have hunit : unit q ≤ 2 / 3 := by
      refine (unit_le hne).trans (max_le ?_ ?_)
      · rw [abs_of_nonneg hq]
        norm_num at hle ⊢
        linarith
      · calc (2 : ℚ) ^ (-1074 : ℤ) ≤ 2 ^ (-1 : ℤ) := zpow_le_zpow_right₀ one_le_two (by norm_num)
          _ ≤ 2 / 3 := by norm_num
    exact (abs_nearest_sub_le hlimit).trans (by linarith)
  · have hgrid : OnGrid (2 ^ 51 + 1) := by
      exact_mod_cast onGrid_natCast (n := 2 ^ 51 + 1) (by norm_num)
    refine nearest_le_of_le hgrid ?_ (by linarith)
    rw [abs_of_pos (by norm_num)]
    exact le_trans (by norm_num) (two_pow_lt_limit (k := 53) (by norm_num)).le

/-- The computed number of steps misses the exact one by less than two thirds of a step. -/
theorem width_le_span (hw : w.isValid) (hsize : w.size * 2 ^ (-50 : ℤ) ≤ position w.step)
    (hlt : w.start < w.max) (hfin : w.span.isFinite) :
    position w.max - position w.start ≤ (position w.span + 7 / 12) * position w.step ∧
      position w.span ≤ 2 ^ 51 + 1 := by
  have hstep := position_step_pos hw
  have hwfin := isFinite_of_div hfin
  obtain ⟨hwlow, hwhigh⟩ := abs_le.mp (abs_width_sub_le hw hsize hlt hwfin)
  have hd₀ : 0 ≤ position (w.max - w.start) := by
    rw [(isNearest_width hw).position_eq]
    exact nearest_nonneg (sub_nonneg.mpr (lt_iff.mp hlt).2.2.le)
  obtain ⟨q, hq⟩ : ∃ q, q = position (w.max - w.start) / position w.step := ⟨_, rfl⟩
  have hspan := (isNearest_span hw hwfin).position_eq
  have hlimit := abs_position_lt hfin
  rw [← hq] at hspan
  rw [hspan] at hlimit ⊢
  have hqd : q * position w.step = position (w.max - w.start) := by
    rw [hq]
    exact div_mul_cancel₀ _ hstep.ne'
  have hqle : q ≤ 2 ^ 51 + 1 / 2 := by
    have hsize' := w.width_le_size
    rw [hq, div_le_iff₀ hstep]
    norm_num at hsize ⊢
    linarith
  obtain ⟨herr, hbound⟩ := nearest_quotient (hq ▸ div_nonneg hd₀ hstep.le) hqle hlimit
  have hmul : q * position w.step ≤ (nearest q + 1 / 3) * position w.step :=
    mul_le_mul_of_nonneg_right (by linarith [(abs_le.mp herr).1]) hstep.le
  exact ⟨by linarith, hbound⟩

/-- With a coarse step the last index is beyond the end of the window. -/
theorem max_lt_cursor_lastIndex (hw : w.isValid)
    (hsize : w.size * 2 ^ (-50 : ℤ) ≤ position w.step) : w.max < w.cursor w.lastIndex := by
  obtain ⟨hstart, hmax, -, -⟩ := isValid_iff.mp hw
  have hstep := position_step_pos hw
  by_cases hend : w.max ≤ w.start
  · have hindex : w.lastIndex = 1 := by
      rw [lastIndex, sampleCount_eq hw, if_pos hend]
      norm_num
    have hfirst := lt_add_step hw hstart (by
      have hle := w.abs_ends_le_size.1
      norm_num at hsize ⊢
      linarith [abs_nonneg (position w.start)])
    rw [hindex]
    refine Grid.lt_of_le_of_lt hend (lt_iff.mpr ⟨isNaN_of_isFinite hstart, isNaN_cursor hw 1, ?_⟩)
    rw [position_cursor_one hw]
    exact (lt_iff.mp hfirst).2.2
  have hlt : w.start < w.max :=
    (not_le_iff (isNaN_of_isFinite hmax) (isNaN_of_isFinite hstart)).mp hend
  by_cases hfin : w.span.isFinite
  · obtain ⟨hwidth, hspan⟩ := width_le_span hw hsize hlt hfin
    have hceil : ⌈position w.span⌉ ≤ 2 ^ 51 + 1 := Int.ceil_le.mpr (by exact_mod_cast hspan)
    have hcount : w.sampleCount = ⌈position w.span⌉.toNat := by
      rw [sampleCount_eq hw, if_neg hend, if_pos hfin]
      omega
    have hindex : w.lastIndex = w.sampleCount + 1 := by
      unfold lastIndex
      omega
    rw [hindex]
    refine max_lt_cursor hw hsize (by omega) ?_
    have hle : position w.span ≤ (w.sampleCount : ℚ) := by
      rw [hcount]
      exact (Int.le_ceil _).trans (by exact_mod_cast Int.self_le_toNat _)
    have hmul := mul_le_mul_of_nonneg_right hle hstep.le
    push_cast
    linarith
  · have hindex : w.lastIndex = 2 ^ 64 - 2 := by
      rw [lastIndex, sampleCount_eq hw, if_neg hend, if_neg hfin]
      norm_num
    rw [hindex]
    refine Grid.lt_of_lt_of_le (max_lt_cursor hw hsize le_rfl ?_)
      (cursor_mono hw (by norm_num : 2 ^ 53 ≤ 2 ^ 64 - 2) (by norm_num))
    have hwidth := w.width_le_size
    push_cast
    norm_num at hsize ⊢
    linarith

end CurveSearch.Window
