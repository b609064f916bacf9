import CurveSearch.Proofs.Crossing
import CurveSearch.Proofs.Inputs

/-!
# The value over a root

A point is accepted as a root if its value is below one tolerance, `eps`, but before that its value
is snapped to zero if it is below another one, a part of the step. The graph over a root is
therefore below the larger of the two. It is below `eps` for every graph exactly when snapping
cannot let a larger value through.
-/

namespace CurveSearch

open Grid Detector

variable {f g : Graph} {w : Window} {tol : Tolerances} {step : Float} {p q : Point}

/-! ## What an accepted point says about the graph -/

theorem accepts_iff : crossing.accepts tol p ↔ p.value.abs < tol.eps := decide_eq_true_iff

theorem accepts_of_position_eq_zero (heps : 0 < tol.eps) (hnan : p.value.isNaN = false)
    (hzero : position p.value = 0) : crossing.accepts tol p :=
  accepts_iff.mpr (abs_lt_of_position_eq_zero hnan hzero heps)

/-- A point of the graph that is accepted after snapping lies below one of the two tolerances. -/
theorem exists_value_of_accepts (hq : q.IsOn f)
    (h : crossing.accepts tol (Origin.snap f w tol q)) :
    ∃ y, f (Origin.snap f w tol q).abscissa = some y ∧
      (y.abs < tol.eps ∨ y.abs < tol.noise w.step) := by
  have hon := Origin.snapAbscissa_isOn w (tol.noise w.step) hq
  rw [Origin.snap_eq] at h ⊢
  by_cases hnoise : Origin.isNoise (tol.noise w.step)
      (Origin.snapAbscissa f w (tol.noise w.step) q).value
  · obtain ⟨hnan, -⟩ := Origin.isNoise_iff.mp hnoise
    exact ⟨_, (congrArg f (Origin.abscissa_snapValue _ _)).trans (hon.eq_some hnan),
      .inr (Origin.abs_lt_of_isNoise hnoise)⟩
  · rw [Origin.snapValue_of_not_isNoise hnoise] at h ⊢
    rw [accepts_iff] at h
    have hnan := (lt_iff.mp h).1
    rw [isNaN_abs] at hnan
    exact ⟨_, hon.eq_some hnan, .inl h⟩

theorem exists_value_of_found (h : scan crossing f w tol = .found p) :
    ∃ y, f p.abscissa = some y ∧ (y.abs < tol.eps ∨ y.abs < tol.noise w.step) := by
  obtain ⟨i, state, hreached, -, hvisit⟩ := Scan.scan_found h
  obtain ⟨c, hc, rfl, haccept⟩ := hreached.found_candidate crossingMemory hvisit
  refine exists_value_of_accepts (Candidate.refine_isOn fun s hs ↦ ?_) haccept
  obtain ⟨-, -, -, -, hsample⟩ := hc s hs
  exact hsample

theorem exists_value_of_root_found (h : (Search.root f w tol).isFound) :
    ∃ y, f (Search.root f w tol).abscissa = some y ∧
      (y.abs < tol.eps ∨ y.abs < tol.noise w.step) := by
  obtain ⟨-, p, hscan, -, heq⟩ := Search.root_found h
  have hvalue := exists_value_of_found hscan
  rwa [heq]

/-! ## Steps that leave room for one sample -/

/-- Whether a window with this step has one cursor at most, and never one that is snapped to the
origin. -/
structure IsLone (step noise : Float) : Prop where
  overflow : ¬ (step + step).isFinite
  not_isNoise : ∀ s, s.isFinite → s < 0 → ¬ Origin.isNoise noise (s + step)

theorem position_stride_two (hw : w.isValid) :
    position (w.stride 2) = position (w.step + w.step) := by
  have hstep := (Window.isValid_iff.mp hw).2.2.1
  have hindex : position (UInt64.ofNat 2).toFloat = 2 := by
    rw [(Window.isNearest_index (by norm_num)).position_eq]
    have hgrid : OnGrid ((2 : ℕ) : ℚ) := onGrid_natCast (by norm_num)
    refine nearest_eq_self hgrid ?_
    rw [Nat.abs_cast]
    exact_mod_cast (two_pow_lt_limit (k := 1) (by norm_num)).le
  rw [(Window.isNearest_stride hw 2).position_eq, (isNearest_add hstep hstep).position_eq, hindex,
    two_mul]

theorem eq_one_of_visits (hw : w.isValid) (hover : ¬ (w.step + w.step).isFinite) {i : ℕ}
    (hone : 1 ≤ i) (hi : w.Visits i) : i = 1 := by
  by_contra hne
  obtain ⟨hstart, -, hstep, -⟩ := Window.isValid_iff.mp hw
  have hcursor : w.cursor 2 ≤ w.max :=
    Grid.le_trans (Window.cursor_mono hw (by omega) hi.1) (hi.cursor_le hw)
  have hstride : (w.stride 2).isFinite := (isFinite_of_add (Window.isFinite_cursor hw hcursor)).2
  have hlt := abs_position_lt hstride
  rw [position_stride_two hw] at hlt
  exact hover (isFinite_iff.mpr ⟨(isNearest_add hstep hstep).isNaN_eq, hlt⟩)

theorem isNoise_cursor_one (hw : w.isValid) {noise : Float} :
    Origin.isNoise noise (w.cursor 1) ↔ Origin.isNoise noise (w.start + w.step) := by
  obtain ⟨hstart, -, hstep, -⟩ := Window.isValid_iff.mp hw
  rw [Origin.isNoise_iff, Origin.isNoise_iff, Window.position_cursor_one hw,
    Window.isNaN_cursor hw 1, (isNearest_add hstart hstep).isNaN_eq]

/-- With one sample the only candidate is that sample, and it is zero already. -/
theorem exists_value_of_lone (hw : w.isValid) (hlone : IsLone w.step (tol.noise w.step))
    (h : scan crossing f w tol = .found p) :
    ∃ y, f p.abscissa = some y ∧ y.abs ≤ tol.zeroEps := by
  obtain ⟨i, state, hreached, hi, hvisit⟩ := Scan.scan_found h
  obtain rfl := eq_one_of_visits hw hlone.overflow hreached.one_le hi
  have hcap := hreached.three_le_capacity
  have hrecent : state.history.recent = [] := by
    cases hreached with
    | start => rfl
    | step hearlier => exact absurd hearlier.one_le (by omega)
  rcases Scan.visit_first f w tol (w.cursor 1) hcap hrecent with
    ⟨next, heq⟩ | ⟨y, hf, hexact, heq⟩
  · rw [heq] at hvisit
    exact nomatch hvisit
  · rw [heq] at hvisit
    cases hvisit
    refine ⟨y, ?_, hexact⟩
    rw [Origin.abscissa_snap]
    rcases Origin.snapAbscissa_cases f w (tol.noise w.step) ⟨w.cursor 1, y⟩ with
      heq | ⟨z, hin, hnoise, -, -⟩
    · rw [heq]
      exact hf
    · simp only [Origin.inWindow, Bool.and_eq_true, decide_eq_true_eq] at hin
      exact absurd ((isNoise_cursor_one hw).mp hnoise)
        (hlone.not_isNoise w.start (Window.isValid_iff.mp hw).1 hin.1)

/-! ## The law of roots -/

/-- What roots and intersections are relied on for with one step, whatever the window and the graphs
are: over a root the graph is defined and small, and over an intersection both graphs are defined
and their difference is small, and the value is the one of the first graph. -/
structure RootsAre (small : Float → Prop) (step : Float) (tol : Tolerances) : Prop where
  roots : ∀ (w : Window) (f : Graph), w.isValid → w.step = step → f.FiniteValued →
    (Search.root f w tol).isFound →
      ∃ y, f (Search.root f w tol).abscissa = some y ∧ small y
  intersections : ∀ (w : Window) (f g : Graph), w.isValid → w.step = step → f.FiniteValued →
    g.FiniteValued → (Search.intersection f g w tol).isFound →
      ∃ a b, f (Search.intersection f g w tol).abscissa = some a ∧
        g (Search.intersection f g w tol).abscissa = some b ∧
          small (a - b) ∧ (Search.intersection f g w tol).value = a

theorem rootsAre_of_roots {small : Float → Prop}
    (h : ∀ (w : Window) (f : Graph), w.isValid → w.step = step → f.FiniteValued →
      (Search.root f w tol).isFound →
        ∃ y, f (Search.root f w tol).abscissa = some y ∧ small y) : RootsAre small step tol := by
  refine ⟨h, fun w f g hw hstep _ _ hfound ↦ ?_⟩
  obtain ⟨hroot, y, hy, heq⟩ := Search.intersection_found hfound
  obtain ⟨d, hd, hsmall⟩ := h w (f.difference g) hw hstep (Graph.finiteValued_difference f g) hroot
  obtain ⟨a, b, ha, hb, rfl, -⟩ := Graph.difference_eq_some.mp hd
  rw [heq]
  refine ⟨a, b, ha, hb, hsmall, ?_⟩
  rw [ha, Option.some.injEq] at hy
  exact hy.symm

/-- The law of roots: they are zeros up to the tolerance. -/
def RootsAreZeros (step : Float) (tol : Tolerances) : Prop :=
  RootsAre (fun y ↦ y.abs < tol.eps) step tol

/-! ## When the law holds -/

theorem eps_pos_of_accepts (h : crossing.accepts tol p) : 0 < tol.eps := by
  obtain ⟨-, hnan, hlt⟩ := lt_iff.mp (accepts_iff.mp h)
  rw [position_abs] at hlt
  exact lt_iff.mpr ⟨isNaN_of_isFinite isFinite_zero, hnan, (abs_nonneg _).trans_lt hlt⟩

theorem eps_pos_of_root_found (h : (Search.root f w tol).isFound) : 0 < tol.eps := by
  obtain ⟨-, p, hscan, -, -⟩ := Search.root_found h
  obtain ⟨i, state, hreached, -, hvisit⟩ := Scan.scan_found hscan
  obtain ⟨-, -, -, haccept⟩ := hreached.found_candidate crossingMemory hvisit
  exact eps_pos_of_accepts haccept

theorem rootsAre_lt_eps_or_lt_noise (step : Float) (tol : Tolerances) :
    RootsAre (fun y ↦ y.abs < tol.eps ∨ y.abs < tol.noise step) step tol := by
  refine rootsAre_of_roots fun w f _ hstep _ hfound ↦ ?_
  rw [← hstep]
  exact exists_value_of_root_found hfound

theorem rootsAreZeros_of_noise_le (h : tol.noise step ≤ tol.eps) : RootsAreZeros step tol := by
  refine rootsAre_of_roots fun w f hw hstep hf hfound ↦ ?_
  obtain ⟨y, hy, hlt | hlt⟩ := (rootsAre_lt_eps_or_lt_noise step tol).roots w f hw hstep hf hfound
  · exact ⟨y, hy, hlt⟩
  · exact ⟨y, hy, Grid.lt_of_lt_of_le hlt h⟩

theorem rootsAreZeros_of_eps_le_zero (h : tol.eps ≤ 0) : RootsAreZeros step tol := by
  refine rootsAre_of_roots fun w f _ _ _ hfound ↦ ?_
  exact absurd (lt_iff.mp (Grid.lt_of_lt_of_le (eps_pos_of_root_found hfound) h)).2.2 (lt_irrefl _)

theorem rootsAreZeros_of_isLone (hlone : IsLone step (tol.noise step))
    (hexact : tol.zeroEps < tol.eps) : RootsAreZeros step tol := by
  refine rootsAre_of_roots fun w f hw hstep _ hfound ↦ ?_
  obtain ⟨-, p, hscan, -, heq⟩ := Search.root_found hfound
  obtain ⟨y, hy, hle⟩ := exists_value_of_lone hw (hstep ▸ hlone) hscan
  rw [heq]
  exact ⟨y, hy, Grid.lt_of_le_of_lt hle hexact⟩

end CurveSearch
