import CurveSearch.Proofs.Crossing
import CurveSearch.Proofs.Inputs
import CurveSearch.Proofs.Walk
import CurveSearch.SampleTable

/-!
# Crossings that a walk sees

A crossing is visible in a window if two of its cursors on end have samples of different signs. No
scan goes past a visible crossing of its window: it ends with a root between the two cursors, or it
has ended at an earlier one. A walk, however, goes on with other cursors after each root, and a
crossing that was visible in the first window may fall between its restart and its next cursor.
-/

namespace CurveSearch

open Grid Detector

/-- The point that bisection between two cursors on end comes to, as a scan reports it. -/
def Window.crossingPoint (w : Window) (f : Graph) (tol : Tolerances) (negative : Bool) (i : ℕ) :
    Point :=
  Origin.snap f w tol
    (Bisection.bisect f negative tol.maxIterations (w.cursor i) (w.cursor (i + 1)))

/-- Whether a window shows a crossing between the cursor with index `i` and the next one: the
samples are not zero already and differ in sign, and the point between them is accepted as a root.
-/
structure VisibleCrossing (f : Graph) (w : Window) (tol : Tolerances) (i : ℕ)
    (left right : Float) : Prop where
  isValid : w.isValid
  one_le : 1 ≤ i
  index_lt : i + 1 < 2 ^ 64
  cursor_le : w.cursor (i + 1) ≤ w.max
  left_eq : f (w.cursor i) = some left
  right_eq : f (w.cursor (i + 1)) = some right
  lt_left : tol.zeroEps < left.abs
  lt_right : tol.zeroEps < right.abs
  signs : left < 0 ∧ 0 < right ∨ 0 < left ∧ right < 0
  accepts : crossing.accepts tol (w.crossingPoint f tol (left < 0) i)

variable {f : Graph} {v w : Window} {tol : Tolerances} {i count : ℕ} {left right : Float}

namespace VisibleCrossing

theorem visits (h : VisibleCrossing f w tol i left right) {j : ℕ} (hj : j ≤ i + 1) : w.Visits j :=
  Window.visits_of_cursor_le (hj.trans_lt h.index_lt)
    (Grid.le_trans (Window.cursor_mono h.isValid hj h.index_lt) h.cursor_le)

theorem visit_eq (h : VisibleCrossing f w tol i left right) {state : Scan.State Unit}
    (hreached : Scan.Reached crossing f w tol (i + 1) state) :
    Scan.visit crossing f w tol state (w.cursor (i + 1)) =
      .inl (w.crossingPoint f tol (left < 0) i) := by
  have hcap := hreached.three_le_capacity
  have hexact : ¬ right.abs ≤ tol.zeroEps := fun hle ↦
    (le_iff.mp hle).2.2.not_gt (lt_iff.mp h.lt_right).2.2
  generalize hn : i + 1 = n at hreached
  cases hreached with
  | start => exact absurd h.one_le (by omega)
  | @step j earlier _ hearlier _ hvisit =>
      obtain rfl : i = j := by omega
      obtain ⟨rest, hrecent⟩ := hearlier.latest h.left_eq hvisit
      have hfound := Scan.visit_of_signChange hcap hrecent h.right_eq hexact
        (decide_neg_ne h.signs) h.accepts
      exact hfound

theorem exists_visit (h : VisibleCrossing f w tol i left right) :
    ∃ j state p, j ≤ i + 1 ∧ Scan.Reached crossing f w tol j state ∧
      Scan.visit crossing f w tol state (w.cursor j) = .inl p ∧
      (j = i + 1 → p = w.crossingPoint f tol (left < 0) i) := by
  rcases Scan.reached_or_found crossing f tol (i := i + 1)
    (fun j _ hlt ↦ h.visits hlt.le) (by omega) with
    ⟨state, hreached⟩ | ⟨j, state, p, hlt, hreached, -, hvisit⟩
  · exact ⟨i + 1, state, _, le_rfl, hreached, h.visit_eq hreached, fun _ ↦ rfl⟩
  · exact ⟨j, state, p, hlt.le, hreached, hvisit, fun heq ↦ absurd heq hlt.ne⟩

/-- The point of a crossing lies between its cursors, or it was moved to the origin. -/
theorem crossingPoint_between (h : VisibleCrossing f w tol i left right) {negative : Bool}
    (hfin : (w.crossingPoint f tol negative i).abscissa.isFinite) :
    Between (w.cursor i) (w.cursor (i + 1)) (w.crossingPoint f tol negative i).abscissa ∨
      Origin.inWindow w ∧ (w.crossingPoint f tol negative i).abscissa = 0 := by
  unfold Window.crossingPoint at hfin ⊢
  rcases Origin.snap_abscissa_cases f w tol (Bisection.bisect f negative tol.maxIterations
    (w.cursor i) (w.cursor (i + 1))) with heq | ⟨hin, heq⟩
  · have hmono := Window.cursor_mono h.isValid (Nat.le_succ i) h.index_lt
    obtain ⟨hleft, hright, -⟩ := le_iff.mp hmono
    rw [heq] at hfin ⊢
    refine .inl (Bisection.IsMidpoint.between ?_ hfin)
    exact Bisection.bisect_isMidpoint
      (Window.isFinite_cursor h.isValid (Grid.le_trans hmono h.cursor_le))
      (Window.isFinite_cursor h.isValid h.cursor_le) _ ⟨Grid.le_refl hleft, hmono⟩
      ⟨hmono, Grid.le_refl hright⟩
  · exact .inr ⟨hin, heq⟩

end VisibleCrossing

/-! ## A crossing that a walk passes over -/

/-- A broken line with a zero at one and a crossing between two and three. -/
def brokenLine : Graph := fun x ↦
  (SampleTable.value ⟨#[.real 1, .real 0, .real (-1), .real 1, .real 1], 0, 1, .linear⟩ x).finite?

theorem finiteValued_brokenLine : brokenLine.FiniteValued := by
  intro x y hy
  unfold brokenLine Value.finite? at hy
  split at hy
  · split_ifs at hy with hfin
    cases hy
    exact hfin
  · exact nomatch hy

theorem visibleCrossing_brokenLine {x : Float} {i : ℕ} (h : x = 0 ∧ i = 2 ∨ x = 1 ∧ i = 1) :
    VisibleCrossing brokenLine ⟨x, 1, 4⟩ {} i (-1) 1 := by
  rcases h with ⟨rfl, rfl⟩ | ⟨rfl, rfl⟩
  all_goals
    exact ⟨by decide +kernel, by norm_num, by norm_num, by decide +kernel, by decide +kernel,
      by decide +kernel, by decide +kernel, by decide +kernel, by decide +kernel, by decide +kernel⟩

theorem root_brokenLine : Search.root brokenLine ⟨0, 1, 4⟩ {} = ⟨1, 0⟩ := by
  have hstart : Scan.Reached crossing brokenLine ⟨0, 1, 4⟩ {} 1 (.start crossing {}) := .start
  have hvisit := Scan.visit_of_exact (f := brokenLine) (w := ⟨0, 1, 4⟩)
    (x := Window.cursor ⟨0, 1, 4⟩ 1) (y := 0)
    hstart.three_le_capacity (by decide +kernel)
    (by decide +kernel : (0 : Float).abs ≤ ({} : Tolerances).zeroEps) (by decide +kernel)
  have hscan := hstart.scan_eq_found (Window.visits_of_cursor_le (by norm_num) (by decide +kernel))
    hvisit
  rw [Search.root_eq_of_scan (by decide +kernel) hscan]
  rfl

theorem not_isFound_root_brokenLine_after :
    ¬ (Search.root brokenLine (Window.after ⟨0, 1, 4⟩ 1) {}).isFound := by
  obtain ⟨v, hv⟩ : ∃ v, v = Window.after ⟨0, 1, 4⟩ 1 := ⟨_, rfl⟩
  rw [← hv]
  have hvisits : ∀ i, i < 2 ^ 64 → v.cursor i ≤ v.max → v.Visits i := fun _ ↦
    Window.visits_of_cursor_le
  have hfirst : Scan.Reached crossing brokenLine v {} 1 (.start crossing {}) := .start
  have hsecond := hfirst.step (hvisits 1 (by norm_num) (by rw [hv]; decide +kernel))
    (Scan.visit_of_no_candidate (y := 1) (by rw [hv]; decide +kernel)
      (Option.isNone_iff_eq_none.mp (by rw [hv]; decide +kernel)))
  have hthird := hsecond.step (hvisits 2 (by norm_num) (by rw [hv]; decide +kernel))
    (Scan.visit_of_no_candidate (y := 1) (by rw [hv]; decide +kernel)
      (Option.isNone_iff_eq_none.mp (by rw [hv]; decide +kernel)))
  have hend : ¬ v.Visits 3 := fun h ↦ h.2 (by rw [hv]; decide +kernel)
  intro hfound
  obtain ⟨-, p, hscan, -⟩ := Search.root_found hfound
  rw [hthird.scan_eq, Scan.run_of_not_visits hend] at hscan
  exact nomatch hscan

/-- The walk reports the first zero only, however many roots it is asked for, although its window
shows the crossing. -/
theorem walk_passes_over_brokenLine :
    VisibleCrossing brokenLine ⟨0, 1, 4⟩ {} 2 (-1) 1 ∧ brokenLine.FiniteValued ∧
      Configuration.fault? {} = none ∧
      ∀ count, ∀ p ∈ (walk (Target.root.next brokenLine {}) count ⟨0, 1, 4⟩).points,
        ¬ Between (Window.cursor ⟨0, 1, 4⟩ 2) (Window.cursor ⟨0, 1, 4⟩ 3) p.abscissa := by
  refine ⟨visibleCrossing_brokenLine (.inl ⟨rfl, rfl⟩), finiteValued_brokenLine,
    Configuration.fault?_eq_none.mpr (by decide +kernel), fun count p hp ↦ ?_⟩
  have hfirst : Target.root.next brokenLine {} ⟨0, 1, 4⟩ = ⟨1, 0⟩ := root_brokenLine
  have hsecond : ¬ (Target.root.next brokenLine {} (Window.after ⟨0, 1, 4⟩ 1)).isFound :=
    not_isFound_root_brokenLine_after
  obtain rfl : p = ⟨1, 0⟩ := by
    cases count with
    | zero => exact nomatch hp
    | succ count =>
        rw [walk] at hp
        simp only [hfirst] at hp
        rw [if_pos (by decide +kernel)] at hp
        cases count with
        | zero => exact List.mem_singleton.mp hp
        | succ count =>
            rw [walk] at hp
            simp only [if_neg hsecond] at hp
            exact List.mem_singleton.mp hp
  exact fun h ↦ absurd h.1 (by decide +kernel)

/-! ## What walks report -/

/-- Every window of a walk reports a root for each of its visible crossings: its scan ends at the
second cursor of the crossing, with the point of the crossing, or at an earlier cursor. The root is
reported unless its abscissa overflows, which it does not if the doubles of the ends are finite. -/
theorem exists_root_of_visibleCrossing (hv : v ∈ searched (Target.root.next f tol) count w)
    (h : VisibleCrossing f v tol i left right) :
    ∃ j state p, j ≤ i + 1 ∧ Scan.Reached crossing f v tol j state ∧
      Scan.visit crossing f v tol state (v.cursor j) = .inl p ∧
      (p.abscissa.isFinite →
        ⟨p.abscissa, 0⟩ ∈ (walk (Target.root.next f tol) count w).points ∧
          (Between (v.cursor (if j = i + 1 then i else 1)) (v.cursor j) p.abscissa ∨
            Origin.inWindow v ∧ p.abscissa = 0)) ∧
      (j = i + 1 → p = v.crossingPoint f tol (left < 0) i) ∧
      ((w.start + w.start).isFinite → (w.max + w.max).isFinite → p.abscissa.isFinite) := by
  obtain ⟨j, state, p, hj, hreached, hvisit, hpoint⟩ := h.exists_visit
  have hscan := hreached.scan_eq_found (h.visits hj) hvisit
  refine ⟨j, state, p, hj, hreached, hvisit, fun hfin ↦ ⟨?_, ?_⟩, hpoint, fun hstart hmax ↦ ?_⟩
  · have hroot : Target.root.next f tol v = ⟨p.abscissa, 0⟩ :=
      Search.root_eq_of_scan h.isValid hscan
    rw [points_walk, List.mem_filter, List.mem_map]
    exact ⟨⟨v, hv, hroot⟩, hfin⟩
  · split_ifs with hlast
    · obtain rfl := hlast
      rw [hpoint rfl] at hfin ⊢
      exact h.crossingPoint_between hfin
    · exact hreached.found_between crossingMemory h.isValid (h.visits hj) hvisit hfin
  · have hresumes := searched_resumes (contained_next .root f tol)
      (isNaN_of_isFinite (isFinite_of_add hstart).1) v hv
    refine hreached.isFinite_found crossingMemory h.isValid hstart hmax hresumes.start_le ?_
      (h.visits hj) hvisit
    rw [hresumes.max_eq]
    exact Grid.le_refl (isNaN_of_isFinite (isFinite_of_add hmax).1)

/-- From one on the walk reports the crossing between two and three. -/
theorem exists_root_brokenLine :
    ⟨1, 1, 4⟩ ∈ searched (Target.root.next brokenLine {}) 1 ⟨1, 1, 4⟩ ∧
      VisibleCrossing brokenLine ⟨1, 1, 4⟩ {} 1 (-1) 1 ∧
      ∃ p ∈ (walk (Target.root.next brokenLine {}) 1 ⟨1, 1, 4⟩).points,
        Between (Window.cursor ⟨1, 1, 4⟩ 1) (Window.cursor ⟨1, 1, 4⟩ 2) p.abscissa := by
  have hsearched : ⟨1, 1, 4⟩ ∈ searched (Target.root.next brokenLine {}) 1 ⟨1, 1, 4⟩ :=
    List.mem_cons_self
  have hcrossing := visibleCrossing_brokenLine (.inr ⟨rfl, rfl⟩)
  refine ⟨hsearched, hcrossing, ?_⟩
  obtain ⟨j, state, p, hj, hreached, -, hlocated, -, hfin⟩ :=
    exists_root_of_visibleCrossing hsearched hcrossing
  obtain ⟨hmem, hbetween | horigin⟩ := hlocated (hfin (by decide +kernel) (by decide +kernel))
  · refine ⟨_, hmem, ?_⟩
    have hone := hreached.one_le
    obtain rfl | rfl : j = 1 ∨ j = 2 := by omega
    · exact ⟨hbetween.1, Grid.le_trans hbetween.2 (by decide +kernel)⟩
    · exact hbetween
  · exact absurd horigin.1 (by decide +kernel)

end CurveSearch
