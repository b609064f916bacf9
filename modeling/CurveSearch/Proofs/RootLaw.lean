import CurveSearch.Proofs.RootValue

/-!
# When roots are zeros

If values above the tolerance are snapped to zero, there is a graph with a root that is none, unless
nothing is accepted at all or the step leaves room for one sample only. There are three ways to such
a root: a sample that counts as zero, two samples of different signs, and a sample that is moved to
the origin.
-/

namespace CurveSearch

open Grid Detector

variable {f : Graph} {w : Window} {tol : Tolerances} {step : Float} {p q : Point}

/-! ## Roots that are none -/

namespace RootsAreZeros

/-- A visit that ends a scan over a value that is not zero breaks the law. -/
theorem not_of_visit {i : ℕ} {state : Scan.State Unit} {y : Float} (hw : w.isValid)
    (hstep : w.step = step) (hf : f.FiniteValued)
    (hreached : Scan.Reached crossing f w tol i state) (hi : w.Visits i)
    (hvisit : Scan.visit crossing f w tol state (w.cursor i) = .inl p)
    (hfin : p.abscissa.isFinite) (hy : f p.abscissa = some y) (hlt : ¬ y.abs < tol.eps) :
    ¬ RootsAreZeros step tol := by
  intro hlaw
  have hroot := Search.root_eq_of_scan hw (hreached.scan_eq_found hi hvisit)
  have hfound : (Search.root f w tol).isFound := by rwa [hroot]
  obtain ⟨z, hz, hzlt⟩ := hlaw.roots w f hw hstep hf hfound
  rw [hroot, hy, Option.some.injEq] at hz
  exact hlt (hz ▸ hzlt)

end RootsAreZeros

theorem isNoise_of_abs_eq {noise y : Float} (heps : 0 < tol.eps) (hnoise : tol.eps < noise)
    (hnan : y.isNaN = false) (habs : |position y| = position tol.eps) : Origin.isNoise noise y := by
  obtain ⟨-, -, hpos⟩ := lt_iff.mp heps
  obtain ⟨-, hbound, hlt⟩ := lt_iff.mp hnoise
  rw [position_zero] at hpos
  refine Origin.isNoise_iff.mpr ⟨hnan, hbound, fun hzero ↦ ?_, by rwa [habs]⟩
  rw [hzero, abs_zero] at habs
  exact hpos.ne habs

theorem accepts_of_isNoise (heps : 0 < tol.eps) (h : Origin.isNoise (tol.noise w.step)
    (Origin.snapAbscissa f w (tol.noise w.step) q).value) :
    crossing.accepts tol (Origin.snap f w tol q) := by
  rw [Origin.snap_eq, Origin.snapValue_of_isNoise h]
  exact accepts_of_position_eq_zero heps (isNaN_of_isFinite isFinite_zero) position_zero

theorem abs_position_of_pos {c : Float} (hc : 0 < c) : |position c| = position c :=
  abs_of_pos (lt_iff.mp hc).2.2

/-! ## Graphs at one distance from the axis -/

def Graph.IsLevel (f : Graph) (c : Float) : Prop :=
  ∀ x, ∃ y, f x = some y ∧ y.isNaN = false ∧ |position y| = position c

namespace Graph

variable {c : Float}

theorem IsLevel.finiteValued (hc : c.isFinite) (hf : f.IsLevel c) : f.FiniteValued := by
  intro x y hy
  obtain ⟨z, hz, hnan, habs⟩ := hf x
  rw [hy, Option.some.injEq] at hz
  have hlt := (abs_lt.mp (abs_position_lt hc)).2
  exact isFinite_iff.mpr ⟨hz ▸ hnan, by rwa [hz, habs]⟩

theorem isLevel_const (hc : c.isFinite) (hpos : 0 < c) : (const c).IsLevel c :=
  fun _ ↦ ⟨c, rfl, isNaN_of_isFinite hc, abs_position_of_pos hpos⟩

def jump (c : Float) : Graph := fun x ↦ some (if 0 < x then c else -c)

theorem jump_of_pos {x : Float} (hx : 0 < x) : jump c x = some c := by
  rw [jump, if_pos hx]

theorem jump_of_not_pos {x : Float} (hx : ¬ 0 < x) : jump c x = some (-c) := by
  rw [jump, if_neg hx]

theorem isLevel_jump (hc : c.isFinite) (hpos : 0 < c) : (jump c).IsLevel c := by
  intro x
  by_cases hx : 0 < x
  · exact ⟨c, jump_of_pos hx, isNaN_of_isFinite hc, abs_position_of_pos hpos⟩
  · refine ⟨-c, jump_of_not_pos hx, (isNaN_neg c).trans (isNaN_of_isFinite hc), ?_⟩
    rw [position_neg, abs_neg, abs_position_of_pos hpos]

end Graph

theorem accepts_of_isLevel (heps : 0 < tol.eps) (hnoise : tol.eps < tol.noise w.step)
    (hf : f.IsLevel tol.eps) (hq : q.IsOn f) : crossing.accepts tol (Origin.snap f w tol q) := by
  have hon := Origin.snapAbscissa_isOn w (tol.noise w.step) hq
  obtain ⟨y, hy, hnan, habs⟩ := hf (Origin.snapAbscissa f w (tol.noise w.step) q).abscissa
  apply accepts_of_isNoise heps
  unfold Point.IsOn at hon
  rw [hon, hy, Option.getD_some]
  exact isNoise_of_abs_eq heps hnoise hnan habs

namespace RootsAreZeros

theorem not_of_isLevel {i : ℕ} {state : Scan.State Unit} (hf : f.IsLevel tol.eps)
    (heps : tol.eps.isFinite) (hw : w.isValid) (hstep : w.step = step)
    (hreached : Scan.Reached crossing f w tol i state) (hi : w.Visits i)
    (hvisit : Scan.visit crossing f w tol state (w.cursor i) = .inl p)
    (hfin : p.abscissa.isFinite) : ¬ RootsAreZeros step tol := by
  obtain ⟨y, hy, -, habs⟩ := hf p.abscissa
  exact not_of_visit hw hstep (hf.finiteValued heps) hreached hi hvisit hfin hy
    (not_abs_lt habs.ge)

end RootsAreZeros

/-! ## Windows of one sample -/

namespace Window

def upTo (step start : Float) : Window := ⟨start, step, step⟩

variable {s : Float}

theorem isValid_upTo (hstep : step.isFinite) (hpos : 0 < step) (hs : s.isFinite) :
    (upTo step s).isValid := isValid_iff.mpr ⟨hs, hstep, hstep, hpos⟩

theorem visits_one_upTo (hstep : step.isFinite) (hpos : 0 < step) (hs : s.isFinite) (hle : s ≤ 0) :
    (upTo step s).Visits 1 := by
  have hw := isValid_upTo hstep hpos hs
  apply visits_of_cursor_le (by norm_num)
  refine le_iff.mpr ⟨isNaN_cursor hw 1, isNaN_of_isFinite hstep, ?_⟩
  obtain ⟨-, -, hle⟩ := le_iff.mp hle
  rw [position_zero] at hle
  rw [position_cursor_one hw]
  change position (s + step) ≤ position step
  rw [(isNearest_add hs hstep).position_eq]
  exact (nearest_mono (by linarith)).trans_eq (nearest_position step)

end Window

namespace RootsAreZeros

/-- A sample at the tolerance is zero already if the tolerance for that is not smaller. -/
theorem not_of_exact (hstep : step.isFinite) (hpos : 0 < step) (hfin : tol.eps.isFinite)
    (heps : 0 < tol.eps) (hnoise : tol.eps < tol.noise step) (hexact : tol.eps ≤ tol.zeroEps) :
    ¬ RootsAreZeros step tol := by
  have hzero := Grid.le_refl (isNaN_of_isFinite isFinite_zero)
  have hw := Window.isValid_upTo hstep hpos isFinite_zero
  have hvisits := Window.visits_one_upTo hstep hpos isFinite_zero hzero
  have hlevel := Graph.isLevel_const hfin heps
  have hstart : Scan.Reached crossing (Graph.const tol.eps) (Window.upTo step 0) tol 1
      (.start crossing tol) := .start
  have hle : tol.eps.abs ≤ tol.zeroEps := by
    obtain ⟨hnan, hzeronan, hle⟩ := le_iff.mp hexact
    rw [le_iff, isNaN_abs, position_abs, abs_position_of_pos heps]
    exact ⟨hnan, hzeronan, hle⟩
  have hsample := Graph.const_eq (c := tol.eps) ((Window.upTo step 0).cursor 1)
  have haccept := accepts_of_isLevel (w := Window.upTo step 0) heps hnoise hlevel
    (Point.isOn_of_eq_some hsample)
  have hvisit := Scan.visit_of_exact hstart.three_le_capacity hsample
    hle haccept
  exact not_of_isLevel hlevel hfin hw rfl hstart hvisits hvisit
    (Origin.isFinite_abscissa_snap (Window.isFinite_cursor hw (hvisits.cursor_le hw)))

end RootsAreZeros

def Graph.spike (c : Float) : Graph := fun x ↦ some (if x == 0 then c else 0)

namespace Graph

variable {c : Float}

theorem finiteValued_spike (hc : c.isFinite) : (spike c).FiniteValued := by
  intro x y hy
  rw [spike, Option.some.injEq] at hy
  rw [← hy]
  split_ifs
  · exact hc
  · exact isFinite_zero

theorem spike_of_position_ne_zero {x : Float} (hx : position x ≠ 0) : spike c x = some 0 := by
  rw [spike, if_neg]
  rw [beq_iff, position_zero]
  exact fun h ↦ hx h.2.2

end Graph

namespace RootsAreZeros

/-- A zero of the graph near the origin is moved to the origin, where the graph is at the
tolerance. -/
theorem not_of_isNoise (hstep : step.isFinite) (hpos : 0 < step) (hfin : tol.eps.isFinite)
    (heps : 0 < tol.eps) (hnoise : tol.eps < tol.noise step) (hexact : 0 ≤ tol.zeroEps) {s : Float}
    (hs : s.isFinite) (hneg : s < 0) (hnear : Origin.isNoise (tol.noise step) (s + step)) :
    ¬ RootsAreZeros step tol := by
  have hw := Window.isValid_upTo hstep hpos hs
  have hvisits := Window.visits_one_upTo hstep hpos hs (Grid.le_of_lt hneg)
  have hcursor := (isNoise_cursor_one hw).mpr hnear
  have hsample := Graph.spike_of_position_ne_zero (c := tol.eps)
    (Origin.isNoise_iff.mp hcursor).2.2.1
  have hin : Origin.inWindow (Window.upTo step s) := by
    simp only [Origin.inWindow, Bool.and_eq_true, decide_eq_true_eq]
    exact ⟨hneg, Grid.le_of_lt hpos⟩
  have hsnap : Origin.snapAbscissa (Graph.spike tol.eps) (Window.upTo step s) (tol.noise step)
      ⟨(Window.upTo step s).cursor 1, 0⟩ = ⟨0, tol.eps⟩ := by
    unfold Origin.snapAbscissa
    rw [if_pos (by rw [hin, hcursor]; rfl)]
    rfl
  have hlevel : Origin.isNoise (tol.noise step) tol.eps :=
    isNoise_of_abs_eq heps hnoise (isNaN_of_isFinite hfin) (abs_position_of_pos heps)
  have hstart : Scan.Reached crossing (Graph.spike tol.eps) (Window.upTo step s) tol 1
      (.start crossing tol) := .start
  have haccept : crossing.accepts tol (Origin.snap (Graph.spike tol.eps) (Window.upTo step s) tol
      ⟨(Window.upTo step s).cursor 1, 0⟩) := by
    apply accepts_of_isNoise heps
    change Origin.isNoise (tol.noise step) (Origin.snapAbscissa _ _ (tol.noise step) _).value
    rwa [hsnap]
  have hvisit := Scan.visit_of_exact hstart.three_le_capacity hsample
    hexact haccept
  have habscissa : (Origin.snap (Graph.spike tol.eps) (Window.upTo step s) tol
      ⟨(Window.upTo step s).cursor 1, 0⟩).abscissa = 0 := by
    rw [Origin.abscissa_snap]
    exact congrArg Point.abscissa hsnap
  apply not_of_visit hw rfl (Graph.finiteValued_spike hfin) hstart hvisits hvisit
  · rw [habscissa]
    exact isFinite_zero
  · rw [habscissa]
    rfl
  · exact not_abs_lt (abs_position_of_pos heps).ge

end RootsAreZeros

/-! ## A window of two samples -/

namespace Window

def around (step : Float) : Window := ⟨-step, step, step⟩

theorem isValid_around (hstep : step.isFinite) (hpos : 0 < step) : (around step).isValid :=
  isValid_iff.mpr ⟨by rwa [around, isFinite_neg_float], hstep, hstep, hpos⟩

theorem position_cursor_one_around (hstep : step.isFinite) (hpos : 0 < step) :
    position ((around step).cursor 1) = 0 := by
  have hsum := isNearest_add (a := -step) (by rwa [isFinite_neg_float]) hstep
  rw [position_cursor_one (isValid_around hstep hpos)]
  change position (-step + step) = 0
  rw [hsum.position_eq, position_neg, neg_add_cancel, nearest_zero]

theorem position_cursor_two_around (hdouble : (step + step).isFinite) (hpos : 0 < step) :
    position ((around step).cursor 2) = position step := by
  have hstep := (isFinite_of_add hdouble).1
  have hw := isValid_around hstep hpos
  have hsum := (isNearest_add hstep hstep).position_eq
  have htwo : position (step + step) = 2 * position step := by
    have hlt := abs_position_lt hdouble
    rw [hsum] at hlt ⊢
    rw [nearest_eq_round hlt, ← two_mul, round_eq_self (onGrid_position step).two_mul]
  have hstride : position ((around step).stride 2) = 2 * position step :=
    (position_stride_two hw).trans htwo
  have hfin : ((around step).stride 2).isFinite := by
    refine isFinite_iff.mpr ⟨(isNearest_stride hw 2).isNaN_eq, ?_⟩
    rw [hstride, ← htwo]
    exact abs_position_lt hdouble
  have hcursor := isNearest_add (isValid_iff.mp hw).1 hfin
  rw [cursor_eq, hcursor.position_eq, hstride]
  change nearest (position (-step) + 2 * position step) = position step
  rw [position_neg, two_mul, neg_add_cancel_left, nearest_position]

theorem visits_around (hdouble : (step + step).isFinite) (hpos : 0 < step) {i : ℕ} (hi : i ≤ 2) :
    (around step).Visits i := by
  have hstep := (isFinite_of_add hdouble).1
  have hw := isValid_around hstep hpos
  have hcursor : (around step).cursor 2 ≤ (around step).max := by
    refine le_iff.mpr ⟨isNaN_cursor hw 2, isNaN_of_isFinite hstep, ?_⟩
    exact (position_cursor_two_around hdouble hpos).le
  exact visits_of_cursor_le (by omega) (Grid.le_trans (cursor_mono hw hi (by norm_num)) hcursor)

theorem isFinite_add_self_around (hdouble : (step + step).isFinite) (hpos : 0 < step) {i : ℕ}
    (hone : 1 ≤ i) (htwo : i ≤ 2) :
    ((around step).cursor i + (around step).cursor i).isFinite := by
  have hstep := (isFinite_of_add hdouble).1
  have hw := isValid_around hstep hpos
  have hfin := isFinite_cursor hw ((visits_around hdouble hpos htwo).cursor_le hw)
  have hlow := (le_iff.mp (cursor_mono hw hone (by omega))).2.2
  have hhigh := (le_iff.mp (cursor_mono hw htwo (by norm_num))).2.2
  rw [position_cursor_one_around hstep hpos] at hlow
  rw [position_cursor_two_around hdouble hpos] at hhigh
  apply isFinite_add_self hdouble hfin
  rwa [abs_of_nonneg hlow]

theorem jump_cursor_one_around {c : Float} (hstep : step.isFinite) (hpos : 0 < step) :
    Graph.jump c ((around step).cursor 1) = some (-c) := by
  apply Graph.jump_of_not_pos
  rw [lt_iff, position_cursor_one_around hstep hpos, position_zero]
  exact fun h ↦ h.2.2.false

theorem jump_cursor_two_around {c : Float} (hdouble : (step + step).isFinite) (hpos : 0 < step) :
    Graph.jump c ((around step).cursor 2) = some c := by
  apply Graph.jump_of_pos
  have hnan := isNaN_cursor (isValid_around (isFinite_of_add hdouble).1 hpos) 2
  rw [lt_iff, position_cursor_two_around hdouble hpos]
  exact ⟨isNaN_of_isFinite isFinite_zero, hnan, (lt_iff.mp hpos).2.2⟩

end Window

namespace RootsAreZeros

/-- Two samples of different signs at the tolerance are a bracket without any zero. -/
theorem not_of_signChange (hdouble : (step + step).isFinite) (hpos : 0 < step)
    (hfin : tol.eps.isFinite) (heps : 0 < tol.eps) (hnoise : tol.eps < tol.noise step)
    (hexact : tol.zeroEps < tol.eps) : ¬ RootsAreZeros step tol := by
  have hstep := (isFinite_of_add hdouble).1
  have hw := Window.isValid_around hstep hpos
  have hlevel := Graph.isLevel_jump hfin heps
  have hleft := Window.jump_cursor_one_around (c := tol.eps) hstep hpos
  have hright := Window.jump_cursor_two_around (c := tol.eps) hdouble hpos
  have habs := abs_position_of_pos heps
  have hnot : ∀ y : Float, |position y| = position tol.eps → ¬ y.abs ≤ tol.zeroEps := by
    intro y habs hle
    obtain ⟨-, -, hle⟩ := le_iff.mp hle
    rw [position_abs, habs] at hle
    exact hle.not_gt (lt_iff.mp hexact).2.2
  -- The first sample is not zero, so the scan goes on to the second one.
  have hstart : Scan.Reached crossing (Graph.jump tol.eps) (Window.around step) tol 1
      (.start crossing tol) := .start
  rcases Scan.visit_first (Graph.jump tol.eps) (Window.around step) tol
    ((Window.around step).cursor 1) hstart.three_le_capacity rfl with
    ⟨next, hvisit⟩ | ⟨y, hy, hle, -⟩
  · have hreached := hstart.step (Window.visits_around hdouble hpos (by norm_num)) hvisit
    obtain ⟨rest, hrecent⟩ := hstart.latest hleft hvisit
    have hneg : -tol.eps < 0 := by
      rw [lt_iff, isNaN_neg, position_neg, position_zero]
      exact ⟨isNaN_of_isFinite hfin, isNaN_of_isFinite isFinite_zero,
        neg_lt_zero.mpr (lt_iff.mp heps).2.2⟩
    have hsign : Sample.isNegative ⟨(Window.around step).cursor 1, -tol.eps⟩ ≠
        decide (tol.eps < 0) := decide_neg_ne (.inl ⟨hneg, heps⟩)
    have haccept := accepts_of_isLevel (w := Window.around step) heps hnoise hlevel
      (Bisection.bisect_isOn (Graph.jump tol.eps)
        (Sample.isNegative ⟨(Window.around step).cursor 1, -tol.eps⟩) tol.maxIterations
        ((Window.around step).cursor 1) ((Window.around step).cursor 2))
    have hfound := Scan.visit_of_signChange hreached.three_le_capacity hrecent hright
      (hnot _ habs) hsign haccept
    apply not_of_isLevel hlevel hfin hw rfl hreached
      (Window.visits_around hdouble hpos le_rfl) hfound
    have hmono := Window.cursor_mono hw (by norm_num : 1 ≤ 2) (by norm_num)
    have hone := Window.isFinite_add_self_around hdouble hpos le_rfl (by norm_num)
    have htwo := Window.isFinite_add_self_around hdouble hpos (by norm_num) le_rfl
    refine Origin.isFinite_abscissa_snap (Bisection.IsMidpoint.isFinite hone htwo ?_)
    exact Bisection.bisect_isMidpoint (isFinite_of_add hone).1 (isFinite_of_add htwo).1 _
      ⟨Grid.le_refl (le_iff.mp hmono).1, hmono⟩ ⟨hmono, Grid.le_refl (le_iff.mp hmono).2.1⟩
  · rw [hleft, Option.some.injEq] at hy
    refine absurd hle (hnot y ?_)
    rw [← hy, position_neg, abs_neg, habs]

end RootsAreZeros

/-! ## The condition -/

/-- The law of roots holds if and only if the part of the step that is snapped to zero is not above
the tolerance; else nothing must be accepted at all, or the step must leave room for one sample
only. In all cases roots are zeros up to the larger one of the tolerance and the part that is
snapped. -/
theorem rootsAreZeros_iff (hstep : step.isFinite) (hpos : 0 < step)
    (htol : Configuration.fault? tol = none) :
    (RootsAreZeros step tol ↔ tol.noise step ≤ tol.eps ∨ tol.eps ≤ 0 ∨
      tol.zeroEps < tol.eps ∧ IsLone step (tol.noise step)) ∧
    RootsAre (fun y ↦ y.abs < tol.eps ∨ y.abs < tol.noise step) step tol := by
  refine ⟨⟨fun hlaw ↦ ?_, ?_⟩, rootsAre_lt_eps_or_lt_noise step tol⟩
  · obtain ⟨⟨heps, hzero, hsnap, -⟩, -⟩ := Configuration.fault?_eq_none.mp htol
    have hfin := (Configuration.isNonnegative_iff.mp heps).1
    obtain ⟨hzerofin, hzeropos⟩ := Configuration.isNonnegative_iff.mp hzero
    have hepsnan := isNaN_of_isFinite hfin
    have hzeronan := isNaN_of_isFinite hzerofin
    have hnoisenan : (tol.noise step).isNaN = false :=
      (isNearest_mul hstep (Configuration.isNonnegative_iff.mp hsnap).1).isNaN_eq
    by_contra h
    obtain ⟨hnoise, heps₀, hlone⟩ : ¬ tol.noise step ≤ tol.eps ∧ ¬ tol.eps ≤ 0 ∧
        ¬ (tol.zeroEps < tol.eps ∧ IsLone step (tol.noise step)) := by simpa only [not_or] using h
    rw [not_le_iff hnoisenan hepsnan] at hnoise
    rw [not_le_iff hepsnan (isNaN_of_isFinite isFinite_zero)] at heps₀
    by_cases hexact : tol.zeroEps < tol.eps
    · by_cases hdouble : (step + step).isFinite
      · exact RootsAreZeros.not_of_signChange hdouble hpos hfin heps₀ hnoise hexact hlaw
      · refine hlone ⟨hexact, hdouble, fun s hs hneg hnear ↦ ?_⟩
        have hzerole : 0 ≤ tol.zeroEps :=
          le_iff.mpr ⟨isNaN_of_isFinite isFinite_zero, hzeronan, by rwa [position_zero]⟩
        exact RootsAreZeros.not_of_isNoise hstep hpos hfin heps₀ hnoise hzerole hs hneg hnear hlaw
    · rw [not_lt_iff hzeronan hepsnan] at hexact
      exact RootsAreZeros.not_of_exact hstep hpos hfin heps₀ hnoise hexact hlaw
  · rintro (h | h | ⟨hexact, hlone⟩)
    · exact rootsAreZeros_of_noise_le h
    · exact rootsAreZeros_of_eps_le_zero h
    · exact rootsAreZeros_of_isLone hlone hexact

/-- With the standard tolerances roots are zeros if the step is one, and not if it is a hundred. -/
theorem rootsAreZeros_one_and_not_hundred :
    Configuration.fault? {} = none ∧
      ((1 : Float).isFinite ∧ (0 : Float) < 1 ∧ RootsAreZeros 1 {}) ∧
      (100 : Float).isFinite ∧ (0 : Float) < 100 ∧ ¬ RootsAreZeros 100 {} := by
  have htol : Configuration.fault? {} = none := Configuration.fault?_eq_none.mpr (by decide +kernel)
  have hone : (0 : Float) < 1 := by decide +kernel
  have hhundred : (0 : Float) < 100 := by decide +kernel
  refine ⟨htol, ⟨rfl, hone, ?_⟩, rfl, hhundred, fun hlaw ↦ ?_⟩
  · exact (rootsAreZeros_iff rfl hone htol).1.mpr (.inl (by decide +kernel))
  · rcases (rootsAreZeros_iff rfl hhundred htol).1.mp hlaw with h | h | ⟨-, hlone⟩
    · exact absurd h (by decide +kernel)
    · exact absurd h (by decide +kernel)
    · exact absurd hlone.overflow (by decide +kernel)

end CurveSearch
