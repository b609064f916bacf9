import CurveSearch.Proofs.Binary64.Monotone
import CurveSearch.Window

/-!
# Cursors

The cursors of a valid window never go back, and none is before the start: the index, its product
with the step and the sum with the start are each rounded, and rounding is monotone. That they go
*forward* is another matter, which depends on the step being large enough for the doubles around: a
window of which that holds is called resolved.
-/

namespace CurveSearch.Window

open Grid

variable {w : Window} {i j : ℕ}

theorem isValid_iff :
    w.isValid ↔ w.start.isFinite ∧ w.max.isFinite ∧ w.step.isFinite ∧ 0 < w.step := by
  simp only [isValid, Bool.and_eq_true, decide_eq_true_eq, and_assoc]

theorem position_step_pos (hw : w.isValid) : 0 < position w.step :=
  (lt_iff.mp (isValid_iff.mp hw).2.2.2).2.2

/-! ## Windows that go on with another one -/

/-- Whether a step leads forward from every start between the ends of a window. -/
def Resolved (w : Window) : Prop := ∀ s, w.start ≤ s → s ≤ w.max → s < s + w.step

/-- Whether a window goes on with another one from a later start. -/
structure Resumes (v w : Window) : Prop where
  step_eq : v.step = w.step
  max_eq : v.max = w.max
  start_le : w.start ≤ v.start

theorem Resumes.refl (hw : w.isValid) : w.Resumes w :=
  ⟨rfl, rfl, Grid.le_refl (isNaN_of_isFinite (isValid_iff.mp hw).1)⟩

theorem Resumes.trans {u v w : Window} (h : u.Resumes v) (h' : v.Resumes w) : u.Resumes w :=
  ⟨h.step_eq.trans h'.step_eq, h.max_eq.trans h'.max_eq, Grid.le_trans h'.start_le h.start_le⟩

/-! ## Cursors in order -/

def stride (w : Window) (i : ℕ) : Float := (UInt64.ofNat i).toFloat * w.step

theorem cursor_eq (w : Window) (i : ℕ) : w.cursor i = w.start + w.stride i := rfl

theorem isNearest_index (hi : i < 2 ^ 64) : IsNearest (UInt64.ofNat i).toFloat i := by
  have h := isNearest_toFloat (UInt64.ofNat i)
  rwa [UInt64.toNat_ofNat_of_lt' hi] at h

theorem index_nonneg (i : ℕ) : 0 ≤ position (UInt64.ofNat i).toFloat := by
  rw [(isNearest_toFloat _).position_eq]
  exact nearest_nonneg (by positivity)

theorem isFinite_index (i : ℕ) : (UInt64.ofNat i).toFloat.isFinite := by
  have h := isNearest_toFloat (UInt64.ofNat i)
  have hlimit : (2 : ℚ) ^ 64 < limit := two_pow_lt_limit (by norm_num)
  have hbelow : ((UInt64.ofNat i).toNat : ℚ) ≤ 2 ^ 64 := by
    exact_mod_cast (UInt64.toNat_lt (UInt64.ofNat i)).le
  refine isFinite_iff.mpr ⟨h.isNaN_eq, ?_⟩
  rw [abs_of_nonneg (index_nonneg i), h.position_eq]
  refine (nearest_le_of_le (onGrid_two_pow_nat 64) ?_ hbelow).trans_lt hlimit
  rw [abs_of_pos (by positivity)]
  exact hlimit.le

theorem index_mono (hij : i ≤ j) (hj : j < 2 ^ 64) :
    position (UInt64.ofNat i).toFloat ≤ position (UInt64.ofNat j).toFloat := by
  rw [(isNearest_index (hij.trans_lt hj)).position_eq, (isNearest_index hj).position_eq]
  exact nearest_mono (by exact_mod_cast hij)

theorem isNearest_stride (hw : w.isValid) (i : ℕ) :
    IsNearest (w.stride i) (position (UInt64.ofNat i).toFloat * position w.step) :=
  isNearest_mul (isFinite_index i) (isValid_iff.mp hw).2.2.1

theorem stride_nonneg (hw : w.isValid) (i : ℕ) : 0 ≤ w.stride i :=
  mul_nonneg_of_finite (isFinite_index i) (isValid_iff.mp hw).2.2.1 (index_nonneg i)
    (position_step_pos hw).le

theorem stride_mono (hw : w.isValid) (hij : i ≤ j) (hj : j < 2 ^ 64) :
    w.stride i ≤ w.stride j := by
  have hi := isNearest_stride hw i
  have hj' := isNearest_stride hw j
  refine le_iff.mpr ⟨hi.isNaN_eq, hj'.isNaN_eq, ?_⟩
  rw [hi.position_eq, hj'.position_eq]
  exact nearest_mono (mul_le_mul_of_nonneg_right (index_mono hij hj) (position_step_pos hw).le)

theorem cursor_mono (hw : w.isValid) (hij : i ≤ j) (hj : j < 2 ^ 64) : w.cursor i ≤ w.cursor j :=
  Grid.add_le_add_left (isValid_iff.mp hw).1 (stride_nonneg hw i) (stride_mono hw hij hj)

theorem start_le_cursor (hw : w.isValid) (i : ℕ) : w.start ≤ w.cursor i :=
  le_add_of_nonneg (isValid_iff.mp hw).1 (stride_nonneg hw i)

theorem isNaN_cursor (hw : w.isValid) (i : ℕ) : (w.cursor i).isNaN = false :=
  (le_iff.mp (start_le_cursor hw i)).2.1

theorem isFinite_cursor (hw : w.isValid) (h : w.cursor i ≤ w.max) : (w.cursor i).isFinite :=
  isFinite_of_le_of_le (isValid_iff.mp hw).1 (isValid_iff.mp hw).2.1 (start_le_cursor hw i) h

theorem position_cursor_one (hw : w.isValid) :
    position (w.cursor 1) = position (w.start + w.step) := by
  obtain ⟨hstart, -, hstep, -⟩ := isValid_iff.mp hw
  refine position_add_congr hstart (stride_nonneg hw 1) (isNaN_of_isFinite hstep) ?_
  have hindex : position (UInt64.ofNat 1).toFloat = 1 := by
    rw [(isNearest_index (by norm_num)).position_eq, Nat.cast_one, nearest_one]
  have hstride := (isNearest_stride hw 1).position_eq
  rwa [hindex, one_mul, nearest_position] at hstride

end CurveSearch.Window
