import CurveSearch.Proofs.Scan
import CurveSearch.Search

/-!
# Where searches find points

All searches are scans, so each point found lies between the first cursor and the end of the window,
or it is the origin and the window spans it.
-/

namespace CurveSearch

open Grid

theorem Point.not_isFound_unlocated (value : Float) : ¬ (Point.unlocated value).isFound := by
  change ¬ (Binary64.nan.isFinite = true)
  decide

theorem Point.not_isFound_nowhere : ¬ Point.nowhere.isFound :=
  Point.not_isFound_unlocated Binary64.nan

/-- Whether an abscissa is where a search of a window may find a point. -/
def Window.Holds (w : Window) (x : Float) : Prop :=
  Between (w.cursor 1) w.max x ∨ Origin.inWindow w ∧ x = 0

theorem Scan.holds_of_found {σ : Type} {detector : Detector σ} {f : Graph} {w : Window}
    {tol : Tolerances} {p : Point} (memory : detector.Memory) (hw : w.isValid)
    (h : scan detector f w tol = .found p) (hfin : p.abscissa.isFinite) : w.Holds p.abscissa := by
  obtain ⟨i, state, hreach, hi, hvisit⟩ := scan_found h
  rcases hreach.found_between memory hw hi hvisit hfin with hbetween | horigin
  · exact .inl ⟨hbetween.1, Grid.le_trans hbetween.2 (hi.cursor_le hw)⟩
  · exact .inr horigin

namespace Search

variable {f g : Graph} {w : Window} {tol : Tolerances}

theorem root_found (h : (root f w tol).isFound) :
    w.isValid ∧ ∃ p, scan Detector.crossing f w tol = .found p ∧ p.abscissa.isFinite ∧
      root f w tol = ⟨p.abscissa, 0⟩ := by
  unfold root at h ⊢
  split_ifs at h ⊢ with hw
  · refine ⟨hw, ?_⟩
    cases hscan : scan Detector.crossing f w tol with
    | found p =>
        rw [hscan] at h
        exact ⟨p, rfl, h, rfl⟩
    | exhausted history =>
        rw [hscan] at h
        exact absurd h (Point.not_isFound_unlocated 0)
  · exact absurd h (Point.not_isFound_unlocated 0)

theorem root_eq_of_scan {p : Point} (hw : w.isValid)
    (h : scan Detector.crossing f w tol = .found p) : root f w tol = ⟨p.abscissa, 0⟩ := by
  unfold root
  rw [if_pos hw, h]

theorem not_isFound_verdict (v : Verdict) : ¬ v.point.isFound := by
  cases v with
  | flat value => exact Point.not_isFound_unlocated value
  | tooFewSamples => exact Point.not_isFound_nowhere
  | unsettled => exact Point.not_isFound_nowhere

theorem extremum_found {kind : Extremum} (h : (extremum kind f w tol).isFound) :
    w.isValid ∧ scan (Detector.turn kind) f w tol = .found (extremum kind f w tol) := by
  unfold extremum at h ⊢
  split_ifs at h ⊢ with hw
  · refine ⟨hw, ?_⟩
    cases hscan : scan (Detector.turn kind) f w tol with
    | found p => rfl
    | exhausted history =>
        rw [hscan] at h
        exact absurd h (not_isFound_verdict _)
  · exact absurd h Point.not_isFound_nowhere

theorem intersection_found (h : (intersection f g w tol).isFound) :
    (root (f.difference g) w tol).isFound ∧
      ∃ y, f (root (f.difference g) w tol).abscissa = some y ∧
        intersection f g w tol = ⟨(root (f.difference g) w tol).abscissa, y⟩ := by
  unfold intersection at h ⊢
  simp only at h ⊢
  split_ifs at h ⊢ with hroot
  · refine ⟨hroot, ?_⟩
    cases hf : f (root (f.difference g) w tol).abscissa with
    | some y => exact ⟨y, rfl, rfl⟩
    | none =>
        rw [hf] at h
        exact absurd h Point.not_isFound_nowhere
  · exact absurd h Point.not_isFound_nowhere

theorem holds_of_root_found (h : (root f w tol).isFound) : w.Holds (root f w tol).abscissa := by
  obtain ⟨hw, p, hscan, hfin, heq⟩ := root_found h
  have hholds := Scan.holds_of_found Detector.crossingMemory hw hscan hfin
  rwa [heq]

end Search

/-- Whatever is searched, a point found is where the window may hold one. -/
theorem Target.holds_of_found {target : Target} {f : Graph} {w : Window} {tol : Tolerances}
    (h : (target.next f tol w).isFound) :
    w.isValid ∧ w.Holds (target.next f tol w).abscissa := by
  cases target with
  | root => exact ⟨(Search.root_found h).1, Search.holds_of_root_found h⟩
  | extremum kind =>
      obtain ⟨hw, hscan⟩ := Search.extremum_found h
      exact ⟨hw, Scan.holds_of_found (Detector.turnMemory kind) hw hscan h⟩
  | intersection other =>
      obtain ⟨hroot, y, -, heq⟩ := Search.intersection_found h
      refine ⟨(Search.root_found hroot).1, ?_⟩
      change w.Holds (Search.intersection f other w tol).abscissa
      rw [heq]
      exact Search.holds_of_root_found hroot

end CurveSearch
