import CurveSearch.Proofs.Search

/-!
# What the detector of roots does

The detector of roots looks at the last two samples, and at a third one where the graph may touch
the axis. A sample that is zero already ends the scan, and so does a change of sign between two
samples on end, if only the refined point is accepted.
-/

namespace CurveSearch

open Grid

/-! ## The last samples -/

namespace History

variable {h : History} {s : Sample}

theorem take_recent_push {k : ℕ} (hk : k ≤ h.capacity) :
    (h.push s).recent.take k = (s :: h.recent).take k := by
  unfold push
  simp only
  split_ifs
  · rw [List.take_take, min_eq_left hk]
  · rfl

theorem recent_push_eq_cons (hcap : 1 ≤ h.capacity) : ∃ rest, (h.push s).recent = s :: rest := by
  have htake := take_recent_push (s := s) hcap
  cases hrecent : (h.push s).recent with
  | nil =>
      rw [hrecent] at htake
      exact nomatch htake
  | cons s' rest =>
      rw [hrecent, List.take_succ_cons, List.take_succ_cons, List.cons.injEq] at htake
      exact ⟨rest, by rw [htake.1]⟩

theorem recent_push_of_nil (hcap : 1 ≤ h.capacity) (hrecent : h.recent = []) :
    (h.push s).recent = [s] := by
  unfold push
  simp only
  rw [hrecent]
  split_ifs
  · exact List.take_of_length_le hcap
  · rfl

theorem recent_push_eq_cons_cons {prev : Sample} {earlier : List Sample} (hcap : 2 ≤ h.capacity)
    (hrecent : h.recent = prev :: earlier) : ∃ rest, (h.push s).recent = s :: prev :: rest := by
  have htake := take_recent_push (s := s) hcap
  rw [hrecent] at htake
  match hpush : (h.push s).recent with
  | [] =>
      rw [hpush] at htake
      exact nomatch htake
  | [_] =>
      rw [hpush] at htake
      simp at htake
  | s' :: prev' :: rest =>
      rw [hpush] at htake
      simp only [List.take_succ_cons, List.take_zero, List.cons.injEq, and_true] at htake
      exact ⟨rest, by rw [htake.1, htake.2]⟩

end History

namespace Scan

variable {σ : Type} {detector : Detector σ} {f : Graph} {w : Window} {tol : Tolerances} {i : ℕ}
  {state next : State σ}

theorem Reached.three_le_capacity (h : Reached detector f w tol i state) :
    3 ≤ state.history.capacity := by
  induction h with
  | start => exact le_max_right _ _
  | @step i state next _ _ hvisit ih =>
      rcases visit_cases detector f w tol state (w.cursor i) with
        ⟨-, heq⟩ | ⟨y, -, ⟨c, -, -, heq⟩ | heq⟩ <;> rw [heq] at hvisit
      · cases hvisit
        exact ih
      · exact nomatch hvisit
      · cases hvisit
        exact ih

theorem Reached.latest (h : Reached detector f w tol i state) {y : Float}
    (hf : f (w.cursor i) = some y)
    (hvisit : visit detector f w tol state (w.cursor i) = .inr next) :
    ∃ rest, next.history.recent = ⟨w.cursor i, y⟩ :: rest := by
  have hcap := h.three_le_capacity
  rcases visit_cases detector f w tol state (w.cursor i) with
    ⟨hnone, -⟩ | ⟨z, hz, ⟨c, -, -, heq⟩ | heq⟩
  · rw [hf] at hnone
    exact nomatch hnone
  · rw [heq] at hvisit
    exact nomatch hvisit
  · rw [hf, Option.some.injEq] at hz
    rw [heq] at hvisit
    cases hvisit
    rw [hz]
    exact History.recent_push_eq_cons (by omega)

end Scan

/-! ## Roots -/

namespace Scan

open Detector

variable {f : Graph} {w : Window} {tol : Tolerances} {state : State Unit} {x y : Float}

theorem visit_of_candidate {c : Candidate} (hf : f x = some y)
    (hc : rootCandidate? tol (state.pushed x y).recent = some c)
    (haccept : crossing.accepts tol (Origin.snap f w tol (c.refine f tol))) :
    visit crossing f w tol state x = .inl (Origin.snap f w tol (c.refine f tol)) := by
  unfold visit
  rw [hf]
  simp only
  unfold sample
  simp only
  have hdetect : (crossing.detect tol (state.history.push ⟨x, y⟩).recent state.detector).1 =
      some c := hc
  rw [hdetect]
  simp only
  rw [if_pos haccept]

theorem visit_of_rejected {c : Candidate} (hf : f x = some y)
    (hc : rootCandidate? tol (state.pushed x y).recent = some c)
    (hreject : ¬ crossing.accepts tol (Origin.snap f w tol (c.refine f tol))) :
    visit crossing f w tol state x = .inr ⟨state.pushed x y, ()⟩ := by
  have hdetect : (state.detected crossing tol x y).1 = some c := hc
  rw [visit_of_eq_some hf, hdetect]
  exact if_neg hreject

theorem visit_of_no_candidate (hf : f x = some y)
    (hc : rootCandidate? tol (state.pushed x y).recent = none) :
    visit crossing f w tol state x = .inr ⟨state.pushed x y, ()⟩ := by
  rcases visit_cases crossing f w tol state x with ⟨hnone, -⟩ | ⟨z, hz, ⟨c, hdetect, -, -⟩ | heq⟩
  · rw [hf] at hnone
    exact nomatch hnone
  · rw [hf, Option.some.injEq] at hz
    rw [← hz] at hdetect
    exact nomatch hc.symm.trans hdetect
  · rw [hf, Option.some.injEq] at hz
    rw [heq, hz]

/-- The first sample of a scan is a candidate only if it is zero already. -/
theorem visit_first (f : Graph) (w : Window) (tol : Tolerances) (x : Float)
    (hcap : 3 ≤ state.history.capacity) (hrecent : state.history.recent = []) :
    (∃ next, visit crossing f w tol state x = .inr next) ∨
    ∃ y, f x = some y ∧ y.abs ≤ tol.zeroEps ∧
      visit crossing f w tol state x = .inl (Origin.snap f w tol ⟨x, y⟩) := by
  rcases visit_cases crossing f w tol state x with
    ⟨-, heq⟩ | ⟨y, hf, ⟨c, hc, -, heq⟩ | heq⟩
  · exact .inl ⟨_, heq⟩
  · have hcandidate : rootCandidate? tol (state.pushed x y).recent = some c := hc
    unfold State.pushed at hcandidate
    rw [History.recent_push_of_nil (by omega) hrecent] at hcandidate
    unfold rootCandidate? at hcandidate
    simp only at hcandidate
    split_ifs at hcandidate with hexact
    cases hcandidate
    exact .inr ⟨y, hf, hexact, heq⟩
  · exact .inl ⟨_, heq⟩

theorem visit_of_exact (hcap : 3 ≤ state.history.capacity) (hf : f x = some y)
    (hexact : y.abs ≤ tol.zeroEps) (haccept : crossing.accepts tol (Origin.snap f w tol ⟨x, y⟩)) :
    visit crossing f w tol state x = .inl (Origin.snap f w tol ⟨x, y⟩) := by
  obtain ⟨rest, hrecent⟩ := History.recent_push_eq_cons (h := state.history) (s := ⟨x, y⟩)
    (by omega)
  refine visit_of_candidate (c := .exact ⟨x, y⟩) hf ?_ haccept
  have hshown : ShowsRoot tol (⟨x, y⟩ :: rest) (.exact ⟨x, y⟩) := .exact hexact
  rw [State.pushed, hrecent]
  exact hshown.rootCandidate?_eq

theorem visit_of_signChange {prev : Sample} {earlier : List Sample}
    (hcap : 3 ≤ state.history.capacity) (hprev : state.history.recent = prev :: earlier)
    (hf : f x = some y) (hexact : ¬ y.abs ≤ tol.zeroEps)
    (hsign : prev.isNegative ≠ decide (y < 0))
    (haccept : crossing.accepts tol (Origin.snap f w tol
      (Bisection.bisect f prev.isNegative tol.maxIterations prev.x x))) :
    visit crossing f w tol state x = .inl (Origin.snap f w tol
      (Bisection.bisect f prev.isNegative tol.maxIterations prev.x x)) := by
  obtain ⟨rest, hrecent⟩ := History.recent_push_eq_cons_cons (s := ⟨x, y⟩) (by omega) hprev
  refine visit_of_candidate (c := .signChange ⟨prev, ⟨x, y⟩⟩) hf ?_ haccept
  have hshown : ShowsRoot tol (⟨x, y⟩ :: prev :: rest) (.signChange ⟨prev, ⟨x, y⟩⟩) :=
    .signChange hexact hsign
  rw [State.pushed, hrecent]
  exact hshown.rootCandidate?_eq

end Scan

end CurveSearch
