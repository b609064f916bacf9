import CurveSearch.Proofs.Search
import CurveSearch.Walk

/-!
# The windows of a walk

Every point of a walk is found in a window of its own, which starts one step after the point before.
If a step from any start between the ends of the first window leads forward, each point lies after
the start of its window, and the points of the walk increase.
-/

namespace CurveSearch

open Grid

def searched (next : Window → Point) : ℕ → Window → List Window
  | 0, _ => []
  | count + 1, w =>
      w :: if (next w).isFound then searched next count (w.after (next w).abscissa) else []

variable {next : Window → Point} {w v : Window}

theorem points_walk (next : Window → Point) (count : ℕ) (w : Window) :
    (walk next count w).points = ((searched next count w).map next).filter Point.isFound := by
  induction count generalizing w with
  | zero => rfl
  | succ count ih =>
      rw [walk, searched]
      simp only
      split_ifs with hfound
      · simp [ih, hfound]
      · simp [hfound]

namespace Window

theorem Holds.isFinite {x : Float} (hw : w.isValid) (h : w.Holds x) : x.isFinite := by
  rcases h with hbetween | ⟨-, rfl⟩
  · exact hbetween.isFinite
      (isFinite_cursor hw (Grid.le_trans hbetween.1 hbetween.2)) (isValid_iff.mp hw).2.1
  · exact isFinite_zero

theorem Holds.le_max {x : Float} (h : w.Holds x) : x ≤ w.max := by
  rcases h with hbetween | ⟨hin, rfl⟩
  · exact hbetween.2
  · simp only [Origin.inWindow, Bool.and_eq_true, decide_eq_true_eq] at hin
    exact hin.2

theorem Holds.start_lt {x : Float} (hv : v.isValid) (hresumes : v.Resumes w) (hw : w.Resolved)
    (h : v.Holds x) : v.start < x := by
  rcases h with hbetween | ⟨hin, rfl⟩
  · have hstart : v.start ≤ v.max :=
      Grid.le_trans (start_le_cursor hv 1) (Grid.le_trans hbetween.1 hbetween.2)
    have hstep := hw v.start hresumes.start_le (hresumes.max_eq ▸ hstart)
    rw [← hresumes.step_eq] at hstep
    obtain ⟨hnan, -, hlt⟩ := lt_iff.mp hstep
    rw [← position_cursor_one hv] at hlt
    exact Grid.lt_of_lt_of_le (lt_iff.mpr ⟨hnan, isNaN_cursor hv 1, hlt⟩) hbetween.1
  · simp only [Origin.inWindow, Bool.and_eq_true, decide_eq_true_eq] at hin
    exact hin.1

theorem Holds.start_le {x : Float} (hv : v.isValid) (h : v.Holds x) : v.start ≤ x := by
  rcases h with hbetween | ⟨hin, rfl⟩
  · exact Grid.le_trans (start_le_cursor hv 1) hbetween.1
  · simp only [Origin.inWindow, Bool.and_eq_true, decide_eq_true_eq] at hin
    exact Grid.le_of_lt hin.1

theorem le_start_after {x : Float} (hv : v.isValid) (hx : x.isFinite) :
    x ≤ (v.after x).start := by
  obtain ⟨-, -, -, hstep⟩ := isValid_iff.mp hv
  exact le_add_of_nonneg hx (Grid.le_of_lt hstep)

end Window

def Contained (next : Window → Point) : Prop :=
  ∀ v, (next v).isFound → v.isValid ∧ v.Holds (next v).abscissa

theorem contained_next (target : Target) (f : Graph) (tol : Tolerances) :
    Contained (target.next f tol) := fun _ h ↦ Target.holds_of_found h

theorem Contained.le_start_after (hnext : Contained next) (hfound : (next v).isFound) :
    (next v).abscissa ≤ (v.after (next v).abscissa).start := by
  obtain ⟨hvalid, hholds⟩ := hnext v hfound
  exact Window.le_start_after hvalid (hholds.isFinite hvalid)

theorem Contained.resumes_after (hnext : Contained next) (hfound : (next v).isFound) :
    (v.after (next v).abscissa).Resumes v := by
  obtain ⟨hvalid, hholds⟩ := hnext v hfound
  exact ⟨rfl, rfl, Grid.le_trans (hholds.start_le hvalid) (hnext.le_start_after hfound)⟩

/-- All windows of a walk go on with the first one. -/
theorem searched_resumes (hnext : Contained next) (hw : w.start.isNaN = false) {count : ℕ} :
    ∀ v ∈ searched next count w, v.Resumes w := by
  induction count generalizing w with
  | zero => exact fun _ hv ↦ nomatch hv
  | succ count ih =>
      intro v hv
      rw [searched, List.mem_cons] at hv
      rcases hv with rfl | hv
      · exact ⟨rfl, rfl, Grid.le_refl hw⟩
      · split_ifs at hv with hfound
        · have hafter := hnext.resumes_after hfound
          exact (ih (le_iff.mp hafter.start_le).2.1 v hv).trans hafter
        · exact nomatch hv

/-! ## Progress -/

/-- What a walk is relied on for: every point lies after the start of the window it was found in and
not after the end, and the points increase. -/
structure Progresses (next : Window → Point) (count : ℕ) (w : Window) : Prop where
  forward : ∀ v ∈ searched next count w, (next v).isFound →
    v.start < (next v).abscissa ∧ (next v).abscissa ≤ w.max
  increasing : (walk next count w).points.Pairwise fun p q ↦ p.abscissa < q.abscissa

theorem start_lt_of_found (hnext : Contained next) (hw : w.Resolved) (hv : v.Resumes w)
    (hfound : (next v).isFound) :
    v.start < (next v).abscissa ∧ (next v).abscissa ≤ w.max := by
  obtain ⟨hvalid, hholds⟩ := hnext v hfound
  exact ⟨hholds.start_lt hvalid hv hw, hv.max_eq ▸ hholds.le_max⟩

/-- A walk through a resolved window progresses, and so do all that go on with it. -/
theorem progresses_of_resolved (hnext : Contained next) (hw : w.Resolved) (count : ℕ)
    (hv : v.Resumes w) : Progresses next count v := by
  have hnan := (le_iff.mp hv.start_le).2.1
  refine ⟨fun u hu hfound ↦ hv.max_eq ▸
    start_lt_of_found hnext hw ((searched_resumes hnext hnan u hu).trans hv) hfound, ?_⟩
  induction count generalizing v with
  | zero => exact List.Pairwise.nil
  | succ count ih =>
      rw [walk]
      simp only
      split_ifs with hfound
      · have hafter := (hnext.resumes_after hfound).trans hv
        have hafternan := (le_iff.mp hafter.start_le).2.1
        refine List.pairwise_cons.mpr ⟨fun q hq ↦ ?_, ih hafter hafternan⟩
        -- A later point is after the start of its window, which is after this point.
        rw [points_walk, List.mem_filter, List.mem_map] at hq
        obtain ⟨⟨u, hu, rfl⟩, hq⟩ := hq
        have hresumes := searched_resumes hnext hafternan u hu
        exact Grid.lt_of_le_of_lt
          (Grid.le_trans (hnext.le_start_after hfound) hresumes.start_le)
          (start_lt_of_found hnext hw (hresumes.trans hafter) hq).1
      · exact List.Pairwise.nil

end CurveSearch
