import CurveSearch.Proofs.RootLaw

/-!
# Results and the origin

The last thing that happens to a refined point is that it may be moved to the origin. That is the
only way in which a result leaves the range of the cursors, and it is not harmless: the graph over
the origin need not be small where the graph beside it is. Such a root is displaced, and the scan
goes on as if it had not been there.
-/

namespace CurveSearch

open Grid Detector

variable {f : Graph} {w : Window} {tol : Tolerances} {p : Point} {i : ℕ}

/-! ## The range of results -/

/-- Every point that a search finds lies between the first cursor and the end of the window, or it
is the origin, and the window spans the origin. -/
theorem Target.abscissa_in_range (target : Target) (h : (target.next f tol w).isFound) :
    w.cursor 1 ≤ (target.next f tol w).abscissa ∧ (target.next f tol w).abscissa ≤ w.max ∨
      (target.next f tol w).abscissa = 0 ∧ w.start < 0 ∧ 0 ≤ w.max := by
  obtain ⟨-, hbetween | ⟨hin, hzero⟩⟩ := target.holds_of_found h
  · exact .inl hbetween
  · simp only [Origin.inWindow, Bool.and_eq_true, decide_eq_true_eq] at hin
    exact .inr ⟨hzero, hin⟩

def Window.besideOrigin : Window := ⟨-0.9999999, 1, 0.5⟩

theorem Window.visits_besideOrigin : besideOrigin.Visits 1 :=
  visits_of_cursor_le (by norm_num) (by decide +kernel)

theorem Origin.snap_const_besideOrigin :
    snap (Graph.const 0) .besideOrigin {} ⟨Window.besideOrigin.cursor 1, 0⟩ = ⟨0, 0⟩ := by
  rw [snap_eq, snapAbscissa, if_pos (by decide +kernel), Graph.const_eq, snapValue,
    if_neg (by decide +kernel)]

theorem Search.root_const_besideOrigin :
    root (Graph.const 0) .besideOrigin {} = ⟨0, 0⟩ := by
  have hstart : Scan.Reached crossing (Graph.const 0) .besideOrigin {} 1 (.start crossing {}) :=
    .start
  have hsnap := Origin.snap_const_besideOrigin
  have hvisit : Scan.visit crossing (Graph.const 0) .besideOrigin {} (.start crossing {})
      (Window.besideOrigin.cursor 1) =
        .inl (Origin.snap (Graph.const 0) .besideOrigin {} ⟨Window.besideOrigin.cursor 1, 0⟩) :=
    Scan.visit_of_exact hstart.three_le_capacity (Graph.const_eq _) (by decide +kernel)
      (by rw [hsnap]; decide +kernel)
  rw [hsnap] at hvisit
  exact root_eq_of_scan (by decide +kernel)
    (hstart.scan_eq_found Window.visits_besideOrigin hvisit)

/-- The root of the zero graph is found at the origin, before the first cursor. -/
theorem Target.abscissa_in_range_besideOrigin :
    (Target.root.next (Graph.const 0) {} .besideOrigin).isFound ∧
      ¬ Window.besideOrigin.cursor 1 ≤
        (Target.root.next (Graph.const 0) {} .besideOrigin).abscissa ∧
      (Target.root.next (Graph.const 0) {} .besideOrigin).abscissa = 0 ∧
      Window.besideOrigin.start < 0 ∧ 0 ≤ Window.besideOrigin.max := by
  have hroot : Target.root.next (Graph.const 0) {} .besideOrigin = ⟨0, 0⟩ :=
    Search.root_const_besideOrigin
  have hfound : (Target.root.next (Graph.const 0) {} .besideOrigin).isFound := by
    rw [hroot]
    rfl
  have hbefore : ¬ Window.besideOrigin.cursor 1 ≤
      (Target.root.next (Graph.const 0) {} .besideOrigin).abscissa := by
    rw [hroot]
    decide +kernel
  refine ⟨hfound, hbefore, ?_⟩
  rcases Target.abscissa_in_range .root hfound with hbetween | horigin
  · exact absurd hbetween.1 hbefore
  · exact horigin

/-! ## Displaced roots -/

/-- Whether a point is moved to the origin, and the graph over the origin is beyond both tolerances
of a root. -/
structure Origin.Displaces (f : Graph) (w : Window) (tol : Tolerances) (p : Point) : Prop where
  inWindow : inWindow w
  isNoise : isNoise (tol.noise w.step) p.abscissa
  exists_value : ∃ y, f 0 = some y ∧ ¬ y.abs < tol.eps ∧ ¬ y.abs < tol.noise w.step

theorem Origin.accepts_snapValue_iff (heps : 0 < tol.eps) :
    crossing.accepts tol (snapValue (tol.noise w.step) p) ↔
      p.value.abs < tol.eps ∨ p.value.abs < tol.noise w.step := by
  by_cases hnoise : isNoise (tol.noise w.step) p.value
  · rw [snapValue_of_isNoise hnoise]
    exact iff_of_true
      (accepts_of_position_eq_zero heps (isNaN_of_isFinite isFinite_zero) position_zero)
      (.inr (abs_lt_of_isNoise hnoise))
  · rw [snapValue_of_not_isNoise hnoise]
    refine ⟨fun haccept ↦ .inl (accepts_iff.mp haccept), ?_⟩
    rintro (hlt | hlt)
    · exact accepts_iff.mpr hlt
    · obtain ⟨hnan, hzero⟩ := (isNoise_or_zero_of_abs_lt hlt).resolve_left hnoise
      exact accepts_of_position_eq_zero heps hnan hzero

/-- A point over which the value is small is accepted after snapping unless it is displaced. -/
theorem Origin.accepts_snap_iff (hsmall : p.value.abs < tol.eps) :
    crossing.accepts tol (snap f w tol p) ↔ ¬ Displaces f w tol p := by
  rw [snap_eq, accepts_snapValue_iff (eps_pos_of_accepts (accepts_iff.mpr hsmall))]
  unfold snapAbscissa
  split_ifs with hmoved
  · rw [Bool.and_eq_true] at hmoved
    cases hzero : f 0 with
    | none =>
        refine iff_of_true (.inl hsmall) fun h ↦ ?_
        obtain ⟨y, hy, -⟩ := h.exists_value
        exact nomatch hzero.symm.trans hy
    | some y =>
        constructor
        · rintro hy ⟨-, -, z, hz, heps, hnoise⟩
          obtain rfl : y = z := Option.some.inj (hzero.symm.trans hz)
          exact hy.elim heps hnoise
        · intro h
          by_contra hy
          rw [not_or] at hy
          exact h ⟨hmoved.1, hmoved.2, y, hzero, hy⟩
  · exact iff_of_true (.inl hsmall) fun h ↦ hmoved (by rw [h.inWindow, h.isNoise]; rfl)

namespace Scan

variable {state : State Unit} {y : Float} {c : Candidate}

/-- A candidate with a small refined value ends the search, and is reported as a root if its
abscissa is finite, exactly if it is not displaced. If it is, the scan goes on. -/
theorem reports_candidate_iff (hw : w.isValid) (h : Reached crossing f w tol i state)
    (hi : w.Visits i) (hy : f (w.cursor i) = some y)
    (hc : (state.detected crossing tol (w.cursor i) y).1 = some c)
    (hsmall : (c.refine f tol).value.abs < tol.eps) :
    (crossing.accepts tol (Origin.snap f w tol (c.refine f tol)) ↔
      ¬ Origin.Displaces f w tol (c.refine f tol)) ∧
    (¬ Origin.Displaces f w tol (c.refine f tol) →
      Search.root f w tol = ⟨(Origin.snap f w tol (c.refine f tol)).abscissa, 0⟩ ∧
        ((c.refine f tol).abscissa.isFinite → (Search.root f w tol).isFound)) ∧
    (Origin.Displaces f w tol (c.refine f tol) →
      Reached crossing f w tol (i + 1) ⟨state.pushed (w.cursor i) y, ()⟩) := by
  have haccepts := Origin.accepts_snap_iff (f := f) (w := w) hsmall
  have hvisit : visit crossing f w tol state (w.cursor i) = _ := visit_of_eq_some hy
  rw [hc] at hvisit
  simp only at hvisit
  refine ⟨haccepts, fun hkept ↦ ?_, fun hdisplaced ↦ ?_⟩
  · rw [if_pos (haccepts.mpr hkept)] at hvisit
    have hroot := Search.root_eq_of_scan hw (h.scan_eq_found hi hvisit)
    refine ⟨hroot, fun hfin ↦ ?_⟩
    rw [hroot]
    exact Origin.isFinite_abscissa_snap hfin
  · rw [if_neg fun haccept ↦ haccepts.mp haccept hdisplaced] at hvisit
    exact h.step hi hvisit

/-- Beside the origin the first sample of the zero graph is a root, and so is the one of the graph
that is zero but for the value one over the origin. The first one is reported, and the other one is
lost. -/
theorem reports_candidate_const_and_not_spike :
    ((((.start crossing {} : State Unit).detected crossing {} (Window.besideOrigin.cursor 1) 0).1 =
        some (.exact ⟨Window.besideOrigin.cursor 1, 0⟩)) ∧
      (0 : Float).abs < ({} : Tolerances).eps ∧ Configuration.fault? {} = none ∧
      (Graph.const 0).FiniteValued ∧ (Graph.spike 1).FiniteValued) ∧
    (Search.root (Graph.const 0) .besideOrigin {}).isFound ∧
    Origin.Displaces (Graph.spike 1) .besideOrigin {} ⟨Window.besideOrigin.cursor 1, 0⟩ ∧
    Search.root (Graph.spike 1) .besideOrigin {} = .unlocated 0 := by
  have hw : Window.besideOrigin.isValid := by decide +kernel
  have hcandidate : ((.start crossing {} : State Unit).detected crossing {}
      (Window.besideOrigin.cursor 1) 0).1 = some (.exact ⟨Window.besideOrigin.cursor 1, 0⟩) := rfl
  have hsmall : (0 : Float).abs < ({} : Tolerances).eps := by decide +kernel
  have hfault : Configuration.fault? {} = none :=
    Configuration.fault?_eq_none.mpr (by decide +kernel)
  have hdisplaced : Origin.Displaces (Graph.spike 1) .besideOrigin {}
      ⟨Window.besideOrigin.cursor 1, 0⟩ :=
    ⟨by decide +kernel, by decide +kernel, 1, rfl, by decide +kernel, by decide +kernel⟩
  have hconst : ¬ Origin.Displaces (Graph.const 0) .besideOrigin {}
      ⟨Window.besideOrigin.cursor 1, 0⟩ := by
    rintro ⟨-, -, y, ⟨⟩, hlarge, -⟩
    exact hlarge hsmall
  refine ⟨⟨hcandidate, hsmall, hfault, Graph.finiteValued_const isFinite_zero,
    Graph.finiteValued_spike rfl⟩, ?_, hdisplaced, ?_⟩
  · exact ((reports_candidate_iff hw .start Window.visits_besideOrigin
      (Graph.const_eq (c := 0) _) hcandidate hsmall).2.1 hconst).2 (by decide +kernel)
  · have hnext := (reports_candidate_iff (f := Graph.spike 1) hw .start Window.visits_besideOrigin
      (by decide +kernel) hcandidate hsmall).2.2 hdisplaced
    have hend : ¬ Window.besideOrigin.Visits 2 := fun h ↦ h.2 (by decide +kernel)
    unfold Search.root
    rw [if_pos hw, hnext.scan_eq, run_of_not_visits hend]

end Scan

end CurveSearch
