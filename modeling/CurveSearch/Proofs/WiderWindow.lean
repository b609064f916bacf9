import CurveSearch.Proofs.ExtremumLaw

/-!
# Wider windows

A search asks for the end of its window in two places only: where it stops, and where it decides
whether the origin is in the window. If a later end leaves the second answer as it is, the scan of
the wider window begins with the scan of the narrower one, rejected candidates included. So it finds
the same point if that one is found, and what it finds up to the earlier end was found before.
-/

namespace CurveSearch

open Detector

namespace Window

def endingAt (w : Window) (m : Float) : Window := { w with max := m }

variable {w : Window} {m : Float} {i : ℕ}

@[simp] theorem cursor_endingAt (w : Window) (m : Float) (i : ℕ) :
    (w.endingAt m).cursor i = w.cursor i := rfl

@[simp] theorem step_endingAt (w : Window) (m : Float) : (w.endingAt m).step = w.step := rfl

theorem isValid_endingAt (hw : w.isValid) (hm : m.isFinite) : (w.endingAt m).isValid := by
  obtain ⟨hstart, -, hstep, hpos⟩ := isValid_iff.mp hw
  exact isValid_iff.mpr ⟨hstart, hm, hstep, hpos⟩

theorem Visits.endingAt (hw : w.isValid) (hle : w.max ≤ m) (h : w.Visits i) :
    (w.endingAt m).Visits i := by
  have hcursor := h.cursor_le hw
  exact visits_of_cursor_le h.1 (Grid.le_trans hcursor hle)

end Window

namespace Scan

variable {σ : Type} {detector : Detector σ} {f : Graph} {w : Window} {tol : Tolerances} {m : Float}
  {i : ℕ} {state : State σ} {p : Point}

/-- One visit does not depend on the end of the window beyond the question whether the origin is in
it. -/
theorem visit_endingAt (horigin : Origin.inWindow w ↔ Origin.inWindow (w.endingAt m))
    (state : State σ) (x : Float) :
    visit detector f (w.endingAt m) tol state x = visit detector f w tol state x := by
  have hin : Origin.inWindow (w.endingAt m) = Origin.inWindow w :=
    (Bool.eq_iff_iff.mpr horigin).symm
  have hsnap : ∀ q, Origin.snap f (w.endingAt m) tol q = Origin.snap f w tol q := by
    intro q
    simp only [Origin.snap, Origin.snapAbscissa, hin, Window.step_endingAt]
  simp only [visit, sample, hsnap]

theorem Reached.endingAt (hw : w.isValid) (hle : w.max ≤ m)
    (horigin : Origin.inWindow w ↔ Origin.inWindow (w.endingAt m))
    (h : Reached detector f w tol i state) : Reached detector f (w.endingAt m) tol i state := by
  induction h with
  | start => exact .start
  | step _ hi hvisit ih =>
      refine ih.step (hi.endingAt hw hle) ?_
      rw [Window.cursor_endingAt, visit_endingAt horigin, hvisit]

theorem Reached.of_endingAt (horigin : Origin.inWindow w ↔ Origin.inWindow (w.endingAt m))
    (hvisits : ∀ j < i, w.Visits j) (h : Reached detector f (w.endingAt m) tol i state) :
    Reached detector f w tol i state := by
  induction h with
  | start => exact .start
  | @step i state next _ _ hvisit ih =>
      refine (ih fun j hj ↦ hvisits j (hj.trans (Nat.lt_succ_self i))).step
        (hvisits i (Nat.lt_succ_self i)) ?_
      rwa [Window.cursor_endingAt, visit_endingAt horigin] at hvisit

/-- A scan that ends with a point ends in the same way if the window is made wider. -/
theorem EndsWith.endingAt (hw : w.isValid) (hle : w.max ≤ m)
    (horigin : Origin.inWindow w ↔ Origin.inWindow (w.endingAt m))
    (h : EndsWith detector f w tol i p) : EndsWith detector f (w.endingAt m) tol i p := by
  obtain ⟨state, hreached, hi, hvisit⟩ := h
  refine ⟨state, hreached.endingAt hw hle horigin, hi.endingAt hw hle, ?_⟩
  rw [Window.cursor_endingAt, visit_endingAt horigin, hvisit]

/-- It ended in the same way before if it ends at a cursor of the narrower window. -/
theorem EndsWith.of_endingAt (hw : w.isValid) (hcursor : w.cursor i ≤ w.max)
    (horigin : Origin.inWindow w ↔ Origin.inWindow (w.endingAt m))
    (h : EndsWith detector f (w.endingAt m) tol i p) : EndsWith detector f w tol i p := by
  obtain ⟨state, hreached, hi, hvisit⟩ := h
  rw [Window.cursor_endingAt, visit_endingAt horigin] at hvisit
  exact ⟨state, hreached.of_endingAt horigin fun j hj ↦ Window.visits_of_le hw hj.le hi.1 hcursor,
    Window.visits_of_le hw le_rfl hi.1 hcursor, hvisit⟩

theorem exists_endsWith (h : scan detector f w tol = .found p) :
    ∃ n, EndsWith detector f w tol n p := by
  obtain ⟨n, state, hreached, hn, hvisit⟩ := scan_found h
  exact ⟨n, state, hreached, hn, hvisit⟩

end Scan

namespace Search

open Scan

variable {f : Graph} {w : Window} {tol : Tolerances} {m : Float} {p : Point} {i : ℕ}

theorem root_eq_of_endsWith (hw : w.isValid) (h : EndsWith crossing f w tol i p) :
    root f w tol = ⟨p.abscissa, 0⟩ :=
  root_eq_of_scan hw h.scan_eq

/-- A root or an extremum that is found stays the result of the search if the window gets a later
end, as long as the origin does not come into the window with it. Conversely, what the search of the
wider window ends with at a cursor of the narrower one was the result there. -/
theorem result_endingAt (f : Graph) (tol : Tolerances) (hw : w.isValid) (hm : m.isFinite)
    (hle : w.max ≤ m) (horigin : Origin.inWindow w ↔ Origin.inWindow (w.endingAt m)) :
    (((root f w tol).isFound → root f (w.endingAt m) tol = root f w tol) ∧
      ∀ i p, EndsWith crossing f (w.endingAt m) tol i p → w.cursor i ≤ w.max →
        root f (w.endingAt m) tol = ⟨p.abscissa, 0⟩ ∧ root f w tol = ⟨p.abscissa, 0⟩) ∧
    ∀ kind,
      ((extremum kind f w tol).isFound →
        extremum kind f (w.endingAt m) tol = extremum kind f w tol) ∧
      ∀ i p, EndsWith (turn kind) f (w.endingAt m) tol i p → w.cursor i ≤ w.max →
        extremum kind f (w.endingAt m) tol = p ∧ extremum kind f w tol = p := by
  have hwide := Window.isValid_endingAt hw hm
  refine ⟨⟨fun hfound ↦ ?_, fun i p hend hcursor ↦ ?_⟩,
    fun kind ↦ ⟨fun hfound ↦ ?_, fun i p hend hcursor ↦ ?_⟩⟩
  · obtain ⟨-, p, hscan, -, heq⟩ := root_found hfound
    obtain ⟨n, hend⟩ := exists_endsWith hscan
    rw [heq]
    exact root_eq_of_endsWith hwide (hend.endingAt hw hle horigin)
  · exact ⟨root_eq_of_endsWith hwide hend,
      root_eq_of_endsWith hw (hend.of_endingAt hw hcursor horigin)⟩
  · obtain ⟨-, hscan⟩ := extremum_found hfound
    obtain ⟨n, hend⟩ := exists_endsWith hscan
    exact extremum_eq_of_endsWith hwide (hend.endingAt hw hle horigin)
  · exact ⟨extremum_eq_of_endsWith hwide hend,
      extremum_eq_of_endsWith hw (hend.of_endingAt hw hcursor horigin)⟩

end Search

/-- The foot of the high tent is its first sample. -/
theorem Scan.endsWith_foot_of_tent :
    EndsWith crossing (Expr.tent 1 0.1 20).plot .byTens {} 1 ⟨10, 0⟩ := by
  have hstart : Reached crossing (Expr.tent 1 0.1 20).plot .byTens {} 1 (.start crossing {}) :=
    .start
  have hsnap : Origin.snap (Expr.tent 1 0.1 20).plot .byTens {} ⟨Window.byTens.cursor 1, 0⟩ =
      ⟨10, 0⟩ := by decide +kernel
  refine ⟨_, hstart, (visits_three 1 le_rfl (by norm_num)).1, ?_⟩
  rw [← hsnap]
  exact visit_of_exact hstart.three_le_capacity (by decide +kernel) (by decide +kernel)
    (by decide +kernel)

/-- The foot and the tip of the high tent are found again if the window is twice as long. -/
theorem Search.result_endingAt_high_tent :
    (Window.byTens.isValid ∧ (100 : Float).isFinite ∧ Window.byTens.max ≤ 100 ∧
      (Origin.inWindow .byTens ↔ Origin.inWindow (Window.byTens.endingAt 100))) ∧
    ((root (Expr.tent 1 0.1 20).plot .byTens {}).isFound ∧
      root (Expr.tent 1 0.1 20).plot (Window.byTens.endingAt 100) {} = ⟨10, 0⟩) ∧
    (Scan.EndsWith (turn .maximum) (Expr.tent 1 0.1 20).plot (Window.byTens.endingAt 100) {} 3
        ⟨20, 1⟩ ∧ Window.byTens.cursor 3 ≤ Window.byTens.max) ∧
    extremum .maximum (Expr.tent 1 0.1 20).plot .byTens {} = ⟨20, 1⟩ := by
  have hw : Window.byTens.isValid := by decide +kernel
  have hle : Window.byTens.max ≤ 100 := by decide +kernel
  have horigin : Origin.inWindow .byTens ↔ Origin.inWindow (Window.byTens.endingAt 100) := by
    decide +kernel
  have hroot := root_eq_of_endsWith hw Scan.endsWith_foot_of_tent
  have hfound : (root (Expr.tent 1 0.1 20).plot .byTens {}).isFound := by
    rw [hroot]
    decide +kernel
  have htip := Scan.endsWith_high_tent.endingAt hw hle horigin
  have hcursor : Window.byTens.cursor 3 ≤ Window.byTens.max := by decide +kernel
  have hresult := result_endingAt (Expr.tent 1 0.1 20).plot {} hw (m := 100) rfl hle horigin
  exact ⟨⟨hw, rfl, hle, horigin⟩, ⟨hfound, (hresult.1.1 hfound).trans hroot⟩, ⟨htip, hcursor⟩,
    ((hresult.2 .maximum).2 3 _ htip hcursor).2⟩

end CurveSearch
