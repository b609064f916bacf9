import CurveSearch.Proofs.Crossing
import CurveSearch.Proofs.Inputs
import CurveSearch.Proofs.SampleCount
import CurveSearch.Proofs.Walk

/-!
# Forward progress

A walk is relied on to go forward, whatever it looks for: no point is reported twice, and each lies
after the start of its search. This holds exactly when the window is resolved. Where a step from
some start leads nowhere, the first cursor is the start itself, and a root there is found again.
-/

namespace CurveSearch

open Grid

namespace Search

variable {f : Graph} {v : Window} {tol : Tolerances}

theorem root_eq_cursor_one (hv : v.isValid) (hvisits : v.Visits 1)
    (hsnap : ¬ 0 < tol.noise v.step) {y : Float} (hf : f (v.cursor 1) = some y)
    (hexact : y.abs ≤ tol.zeroEps) (haccept : y.abs < tol.eps) :
    root f v tol = ⟨v.cursor 1, 0⟩ := by
  have hstart : Scan.Reached Detector.crossing f v tol 1 (.start Detector.crossing tol) := .start
  have haccepts : Detector.crossing.accepts tol (Origin.snap f v tol ⟨v.cursor 1, y⟩) := by
    rw [Origin.snap_eq_self hsnap]
    exact decide_eq_true haccept
  have hcap := hstart.three_le_capacity
  have hvisit := Scan.visit_of_exact hcap hf hexact haccepts
  rw [Origin.snap_eq_self hsnap] at hvisit
  exact root_eq_of_scan hv (hstart.scan_eq_found hvisits hvisit)

end Search

def Tolerances.exact : Tolerances := { snapEps := 0 }

theorem Configuration.fault?_exact : fault? Tolerances.exact = none :=
  fault?_eq_none.mpr (by decide +kernel)

variable {w v : Window} {s : Float}

theorem Search.root_zero (hv : v.isValid) (hvisits : v.Visits 1) :
    root (Graph.const 0) v Tolerances.exact = ⟨v.cursor 1, 0⟩ := by
  have hsnap : ¬ 0 < v.step * (0 : Float) := by
    have hprod := isNearest_mul (Window.isValid_iff.mp hv).2.2.1 isFinite_zero
    have hzero : position (v.step * 0) = 0 := by
      rw [hprod.position_eq, position_zero, mul_zero, nearest_zero]
    rw [not_lt_iff (isNaN_of_isFinite isFinite_zero) hprod.isNaN_eq, le_iff, hzero]
    exact ⟨hprod.isNaN_eq, isNaN_of_isFinite isFinite_zero, le_rfl⟩
  exact root_eq_cursor_one hv hvisits hsnap (Graph.const_eq _) (by decide +kernel)
    (by decide +kernel)

/-- No step leads a walk past an abscissa from which a step leads nowhere, so on the zero graph the
walk never comes to an end. -/
theorem length_points_walk_zero (hs : s.isFinite) (hstuck : s + v.step ≤ s) (hsmax : s ≤ v.max)
    (hv : v.isValid) (hvs : v.start ≤ s) (count : ℕ) :
    (walk (Target.root.next (Graph.const 0) Tolerances.exact) count v).points.length = count := by
  induction count generalizing v with
  | zero => rfl
  | succ count ih =>
      obtain ⟨hstart, hmax, hstep, hpos⟩ := Window.isValid_iff.mp hv
      have hfirst : v.cursor 1 ≤ s := by
        have hle := Grid.le_trans (Grid.add_le_add_right hstart hs hstep hvs) hstuck
        rw [le_iff, ← Window.position_cursor_one hv] at hle
        exact le_iff.mpr ⟨Window.isNaN_cursor hv 1, hle.2⟩
      have hcursor := Grid.le_trans hfirst hsmax
      have hfin := Window.isFinite_cursor hv hcursor
      have hroot : Target.root.next (Graph.const 0) Tolerances.exact v = ⟨v.cursor 1, 0⟩ :=
        Search.root_zero hv (Window.visits_of_cursor_le (by norm_num) hcursor)
      have hnext : v.cursor 1 + v.step ≤ s :=
        Grid.le_trans (Grid.add_le_add_right hfin hs hstep hfirst) hstuck
      have hvalid : (v.after (v.cursor 1)).isValid :=
        Window.isValid_iff.mpr ⟨isFinite_of_le_of_le hfin hs
          (le_add_of_nonneg hfin (Grid.le_of_lt hpos)) hnext, hmax, hstep, hpos⟩
      rw [walk]
      simp only
      rw [hroot, if_pos (show Point.isFound ⟨v.cursor 1, 0⟩ from hfin), List.length_cons]
      exact congrArg (· + 1) (ih hstuck hsmax hvalid hnext)

/-- Whether all walks through a window progress, whatever is looked for and on whatever graph. -/
def WalksProgress (w : Window) : Prop :=
  ∀ (f : Graph) (target : Target) (tol : Tolerances) (count : ℕ), f.FiniteValued →
    target.FiniteValued → Configuration.fault? tol = none → Progresses (target.next f tol) count w

/-- If all walks progress, a step from any start between the ends leads forward: else an endless
walk on the zero graph would find more and more points in increasing order. -/
theorem resolved_of_walksProgress (hw : w.isValid) (h : WalksProgress w) : w.Resolved := by
  intro s hstart hmax
  obtain ⟨hstartfin, hmaxfin, hstep, -⟩ := Window.isValid_iff.mp hw
  have hs := isFinite_of_le_of_le hstartfin hmaxfin hstart hmax
  by_contra hstuck
  rw [not_lt_iff (isNaN_of_isFinite hs) (isNearest_add hs hstep).isNaN_eq] at hstuck
  obtain ⟨n, hn⟩ := exists_length_le
  have hprogress := h (Graph.const 0) .root Tolerances.exact (n + 1)
    (Graph.finiteValued_const isFinite_zero) trivial Configuration.fault?_exact
  have hlength := hn _ (List.pairwise_map.mpr hprogress.increasing)
  rw [List.length_map, length_points_walk_zero hs hstuck hmax hw hstart] at hlength
  omega

/-- All walks through an accepted window progress if and only if the window is resolved, which a
step of at least a `2 ^ -52` part of the ends ensures. -/
theorem walksProgress_iff_resolved {limit : ℕ} (h : CommandLine.checkWindow w limit = .ok ()) :
    (WalksProgress w ↔ w.Resolved) ∧
      (w.size * 2 ^ (-52 : ℤ) ≤ position w.step → WalksProgress w) := by
  obtain ⟨hw, -⟩ := CommandLine.checkWindow_eq_ok.mp h
  have hlaw : w.Resolved → WalksProgress w := fun hres f target tol count _ _ _ ↦
    progresses_of_resolved (contained_next target f tol) hres count (Window.Resumes.refl hw)
  exact ⟨⟨resolved_of_walksProgress hw, hlaw⟩,
    fun hsize ↦ hlaw (Window.resolved_of_size_le hw hsize)⟩

/-- Walks through the standard window progress. At `1e17` the doubles are sixteen apart, and a step
of one leads nowhere. -/
theorem walksProgress_standard_and_not_far :
    (CommandLine.checkWindow .standard 1000000 = .ok () ∧ WalksProgress .standard) ∧
      CommandLine.checkWindow ⟨1e17, 1, 100000000000000016⟩ 1000000 = .ok () ∧
        ¬ WalksProgress ⟨1e17, 1, 100000000000000016⟩ := by
  have hstandard : CommandLine.checkWindow .standard 1000000 = .ok () := rfl
  have hfar : CommandLine.checkWindow ⟨1e17, 1, 100000000000000016⟩ 1000000 = .ok () := rfl
  refine ⟨⟨hstandard, (walksProgress_iff_resolved hstandard).2 (by decide +kernel)⟩, hfar,
    fun h ↦ ?_⟩
  have hstep := (walksProgress_iff_resolved hfar).1.mp h 1e17 (by decide +kernel)
    (by decide +kernel)
  exact absurd hstep (by decide +kernel)

end CurveSearch
