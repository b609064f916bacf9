import CurveSearch.Proofs.Inputs
import CurveSearch.Proofs.SampleCount
import CurveSearch.Proofs.Walk

/-!
# The length of a scan

A request is refused when its window needs more samples than the limit, so the number of samples
that a window says it needs should bound every scan. It does so exactly when the cursor after that
many samples is beyond the end. A step that is not much below the resolution of the doubles at the
ends brings that about; a step below it does not.
-/

namespace CurveSearch

open Grid

namespace CommandLine

theorem checkWindow_of_resumes {v w : Window} {limit : ℕ} (h : checkWindow w limit = .ok ())
    (hv : v.isValid) (hresumes : v.Resumes w) : checkWindow v limit = .ok () := by
  obtain ⟨hw, hlimit⟩ := checkWindow_eq_ok.mp h
  exact checkWindow_eq_ok.mpr ⟨hv, (Window.sampleCount_le_of_resumes hv hw hresumes).trans hlimit⟩

/-- The limit holds for all windows that a walk searches, although only the first one is checked. -/
theorem checkWindow_searched {w : Window} {limit : ℕ} (h : checkWindow w limit = .ok ())
    (target : Target) (f : Graph) (tol : Tolerances) (count : ℕ) :
    ∀ v ∈ searched (target.next f tol) count w, v.isValid → checkWindow v limit = .ok () := by
  intro v hv hvalid
  have hstart := (Window.isValid_iff.mp (checkWindow_eq_ok.mp h).1).1
  exact checkWindow_of_resumes h hvalid
    (searched_resumes (contained_next target f tol) (isNaN_of_isFinite hstart) v hv)

end CommandLine

namespace Scan

/-- What the limit on samples promises of every scan of a window, whatever is looked for and on
whatever graph: no more cursors are visited than the window says, and no more than the limit; the
index never comes to its greatest value; and the scan ends with a point or at a cursor beyond the
end. -/
structure IsBounded (w : Window) (limit : ℕ) : Prop where
  visits : ∀ {σ : Type} (detector : Detector σ) (f : Graph) (tol : Tolerances) (i : ℕ)
    (state : State σ), Reached detector f w tol i state → w.Visits i →
      i ≤ w.sampleCount ∧ i ≤ limit
  index : ∀ {σ : Type} (detector : Detector σ) (f : Graph) (tol : Tolerances) (i : ℕ)
    (state : State σ), Reached detector f w tol i state → i < 2 ^ 64 - 1
  ends : ∀ {σ : Type} (detector : Detector σ) (f : Graph) (tol : Tolerances),
    (∃ p, scan detector f w tol = .found p) ∨
      ∃ i state, Reached detector f w tol i state ∧ w.max < w.cursor i ∧
        scan detector f w tol = .exhausted state.history

variable {σ : Type} {detector : Detector σ} {f : Graph} {w : Window} {tol : Tolerances} {i j : ℕ}
  {state : State σ} {limit : ℕ}

variable (tol) in
theorem reached_of_empty (hvisits : ∀ j, 1 ≤ j → j < i → w.Visits j) (hi : 1 ≤ i) :
    ∃ state, Reached Detector.crossing (fun _ ↦ none) w tol i state := by
  rcases reached_or_found Detector.crossing (fun _ ↦ none) tol hvisits hi with
    hreached | ⟨j, state, p, -, -, -, hvisit⟩
  · exact hreached
  · exact nomatch hvisit

theorem isBounded_of_max_lt (hw : w.isValid) (hlimit : w.sampleCount ≤ limit)
    (h : w.max < w.cursor w.lastIndex) : IsBounded w limit := by
  -- The cursor with the last index is beyond the end, so it is not visited and nothing after it is.
  have hvisited : ∀ {i : ℕ}, w.Visits i → i < w.lastIndex := by
    intro i hi
    by_contra hle
    have hcursor := Window.cursor_mono hw (not_lt.mp hle) hi.1
    exact hi.2 (Grid.lt_of_lt_of_le h hcursor)
  have hlast : w.lastIndex ≤ w.sampleCount + 1 ∧ w.lastIndex ≤ 2 ^ 64 - 2 :=
    ⟨min_le_left _ _, min_le_right _ _⟩
  have hindex : ∀ {σ : Type} (detector : Detector σ) (f : Graph) (tol : Tolerances) (i : ℕ)
      (state : State σ), Reached detector f w tol i state → i < 2 ^ 64 - 1 := by
    intro σ detector f tol i state hreached
    cases hreached with
    | start => norm_num
    | step _ hi _ =>
        have hlt := hvisited hi
        omega
  refine ⟨fun detector f tol i state _ hi ↦ ?_, hindex, fun detector f tol ↦ ?_⟩
  · have hlt := hvisited hi
    exact ⟨by omega, by omega⟩
  · rcases Reached.ends (.start : Reached detector f w tol 1 _) with
      ⟨-, -, p, -, -, -, hscan⟩ | ⟨i, state, hreached, hi, hscan⟩
    · exact .inl ⟨p, hscan⟩
    · refine .inr ⟨i, state, hreached, ?_, hscan⟩
      by_contra hmax
      have hlt := hindex detector f tol i state hreached
      exact hi ⟨by omega, hmax⟩

theorem max_lt_of_isBounded (hw : w.isValid) (h : IsBounded w limit) :
    w.max < w.cursor w.lastIndex := by
  by_contra hmax
  have hlast : 1 ≤ w.lastIndex ∧ w.lastIndex < 2 ^ 64 := by
    unfold Window.lastIndex
    omega
  have hvisits : w.Visits w.lastIndex := ⟨hlast.2, hmax⟩
  have hbefore : ∀ j, 1 ≤ j → j < w.lastIndex + 1 → w.Visits j := fun j _ hj ↦
    Window.visits_of_cursor_le (by omega)
      (Grid.le_trans (Window.cursor_mono hw (by omega) hlast.2) (hvisits.cursor_le hw))
  obtain ⟨state, hreached⟩ := reached_of_empty {} (fun j hj hlt ↦ hbefore j hj (by omega))
    hlast.1
  obtain ⟨next, hnext⟩ := reached_of_empty {} hbefore (by omega)
  obtain ⟨hcount, -⟩ := h.visits _ _ _ _ _ hreached hvisits
  have hindex := h.index _ _ _ _ _ hnext
  unfold Window.lastIndex at hcount hindex
  omega

/-- The limit on samples keeps its promise for an accepted window if and only if the cursor after
the last sample is beyond the end, which a step of at least a `2 ^ -50` part of the ends ensures. -/
theorem isBounded_iff (h : CommandLine.checkWindow w limit = .ok ()) :
    (IsBounded w limit ↔ w.max < w.cursor w.lastIndex) ∧
      (w.size * 2 ^ (-50 : ℤ) ≤ position w.step → IsBounded w limit) := by
  obtain ⟨hw, hlimit⟩ := CommandLine.checkWindow_eq_ok.mp h
  exact ⟨⟨max_lt_of_isBounded hw, isBounded_of_max_lt hw hlimit⟩,
    fun hsize ↦ isBounded_of_max_lt hw hlimit (Window.max_lt_cursor_lastIndex hw hsize)⟩

/-- The standard window keeps the promise. At `1e17` the doubles are sixteen apart, so a window
there whose ends are equal says that it needs no sample, and with a step of one it has a cursor. -/
theorem isBounded_standard_and_not_far :
    (CommandLine.checkWindow .standard 1000000 = .ok () ∧ IsBounded .standard 1000000) ∧
      CommandLine.checkWindow ⟨1e17, 1, 1e17⟩ 1000000 = .ok () ∧
        ¬ IsBounded ⟨1e17, 1, 1e17⟩ 1000000 :=
  ⟨⟨rfl, (isBounded_iff rfl).1.mpr (by decide +kernel)⟩, rfl,
    fun h ↦ absurd ((isBounded_iff rfl).1.mp h) (by decide +kernel)⟩

end Scan

end CurveSearch
