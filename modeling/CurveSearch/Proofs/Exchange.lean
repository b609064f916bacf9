import CurveSearch.Proofs.Intersection
import CurveSearch.Proofs.Origin
import CurveSearch.Proofs.Reflection
import CurveSearch.Proofs.VisibleCrossing

/-!
# Intersections in the other order

To exchange the graphs of an intersection is to turn their difference upside down, but for the signs
of its zeros. The search for roots takes zero for positive, so two scans of opposite graphs stay
together for as long as no zero gets into their histories. A sample that is zero is a root and ends
both scans, unless it is displaced by the origin: then it stays, counts as positive on both sides,
and one of the scans sees a change of sign after it and the other one does not.
-/

namespace CurveSearch

open Grid Detector

variable {f g : Graph} {w : Window} {tol : Tolerances} {p q : Point}

/-! ## Opposite graphs -/

theorem Graph.IsOpposite.cost_eq (h : g.IsOpposite f) (x : Float) :
    Goal.minimizeAbs.cost (g x) = Goal.minimizeAbs.cost (f x) := by
  cases hf : f x with
  | none => rw [h.eq_none hf]
  | some y =>
      obtain ⟨z, hz, hopposite⟩ := h.exists_eq_some hf
      rw [hz]
      exact hopposite.abs_eq

theorem Graph.isOpposite_difference (f g : Graph) :
    (g.difference f).IsOpposite (f.difference g) := by
  have hdefined (f g : Graph) {x d : Float} (h : f.difference g x = some d) :
      ∃ d', g.difference f x = some d' ∧ Grid.IsOpposite d' d := by
    obtain ⟨a, b, ha, hb, rfl, hfin⟩ := difference_eq_some.mp h
    obtain ⟨hfin', hopposite⟩ := isOpposite_sub hfin
    exact ⟨b - a, difference_eq_some.mpr ⟨b, a, hb, ha, rfl, hfin'⟩, hopposite⟩
  intro x
  cases hf : f.difference g x with
  | none =>
      cases hg : g.difference f x with
      | none => exact .none
      | some d =>
          obtain ⟨d', hd', -⟩ := hdefined g f hg
          exact nomatch hf.symm.trans hd'
  | some d =>
      obtain ⟨d', hd', hopposite⟩ := hdefined f g hf
      rw [hd']
      exact .some hopposite

/-! ## Samples off the axis -/

def Sample.IsOffAxis (s : Sample) : Prop := s.y.isNaN = false ∧ position s.y ≠ 0

theorem Sample.IsOffAxis.of_ne_zero {s : Sample} (hfin : s.y.isFinite) (h : ¬ s.y == 0) :
    s.IsOffAxis := by
  have hnan := isNaN_of_isFinite hfin
  exact ⟨hnan, fun hposition ↦ h (beq_zero_iff.mpr ⟨hnan, hposition⟩)⟩

theorem Sample.IsOffAxis.isNegative_reflect {s : Sample} (h : s.IsOffAxis) :
    s.reflect.isNegative = !s.isNegative := by
  have hnegative : s.isNegative = decide (position s.y < 0) := by
    unfold isNegative
    rw [decide_eq_decide, lt_iff, position_zero]
    exact ⟨fun hlt ↦ hlt.2.2, fun hlt ↦ ⟨h.1, rfl, hlt⟩⟩
  have hpositive : s.reflect.isNegative = decide (0 < position s.y) := by
    unfold isNegative
    rw [decide_eq_decide, lt_iff, position_zero]
    change (-s.y).isNaN = false ∧ _ ∧ position (-s.y) < 0 ↔ _
    rw [isNaN_neg, position_neg, neg_lt_zero]
    exact ⟨fun hlt ↦ hlt.2.2, fun hlt ↦ ⟨h.1, rfl, hlt⟩⟩
  rw [hnegative, hpositive, ← decide_not, decide_eq_decide, not_lt]
  exact ⟨le_of_lt, fun hle ↦ lt_of_le_of_ne hle h.2.symm⟩

theorem Sample.abs_reflect (s : Sample) : s.reflect.y.abs = s.y.abs := abs_neg_float s.y

namespace Detector

theorem touches_reflect {first prev : Sample} (cur : Sample) (hfirst : first.IsOffAxis)
    (hprev : prev.IsOffAxis) :
    touches first.reflect prev.reflect cur.reflect = touches first prev cur := by
  unfold touches
  rw [hfirst.isNegative_reflect, hprev.isNegative_reflect]
  simp only [Sample.abs_reflect]
  cases first.isNegative <;> cases prev.isNegative <;> rfl

/-- Off the axis the detector of roots does not care which side is up. -/
theorem rootCandidate?_reflect (tol : Tolerances) {recent : List Sample}
    (h : ∀ s ∈ recent, s.IsOffAxis) :
    rootCandidate? tol (recent.map Sample.reflect) =
      (rootCandidate? tol recent).map Candidate.reflect := by
  rcases recent with _ | ⟨cur, _ | ⟨prev, earlier⟩⟩
  · rfl
  · simp only [List.map_cons, List.map_nil, rootCandidate?, Sample.abs_reflect]
    split_ifs <;> rfl
  · have hcur := h cur (by simp)
    have hprev := h prev (by simp)
    have hsign : (prev.reflect.isNegative != cur.reflect.isNegative) =
        (prev.isNegative != cur.isNegative) := by
      rw [hprev.isNegative_reflect, hcur.isNegative_reflect]
      cases prev.isNegative <;> cases cur.isNegative <;> rfl
    simp only [List.map_cons, rootCandidate?, Sample.abs_reflect, hsign]
    cases earlier with
    | nil => split_ifs <;> rfl
    | cons first rest =>
        have htouches := touches_reflect cur (h first (by simp)) hprev
        simp only [List.map_cons, htouches]
        split_ifs <;> rfl

theorem goal_of_rootCandidate? {recent : List Sample} {bracket : Bracket} {mid : Sample}
    {goal : Goal} (h : rootCandidate? tol recent = some (.peak bracket mid goal)) :
    goal = .minimizeAbs := by
  cases showsRoot_of_rootCandidate? h
  rfl

theorem accepts_crossing_of_isReflection (h : q.IsReflection p) :
    crossing.accepts tol q = crossing.accepts tol p := by
  have habs : q.value.abs = p.value.abs := Grid.IsOpposite.abs_eq h.2
  change decide (q.value.abs < tol.eps) = decide (p.value.abs < tol.eps)
  rw [habs]

end Detector

/-! ## Refinement and snapping -/

namespace Bisection

theorem pointAt_isReflection (h : g.IsOpposite f) (x : Float) :
    (pointAt g x).IsReflection (pointAt f x) := by
  refine ⟨rfl, ?_⟩
  unfold pointAt
  cases hf : f x with
  | none =>
      have hnan : Binary64.nan = -Binary64.nan := by decide +kernel
      rw [h.eq_none hf]
      exact .inl hnan
  | some y =>
      obtain ⟨z, hz, hopposite⟩ := h.exists_eq_some hf
      rw [hz]
      exact hopposite

/-- One step on two opposite graphs: both are stuck, both hit a zero, or the same half is left. -/
theorem halve_opposite (h : g.IsOpposite f) (hf : f.FiniteValued) (negative : Bool)
    (lo hi : Float) :
    (halve g (!negative) lo hi = .stuck ∧ halve f negative lo hi = .stuck) ∨
    (∃ q p, q.IsReflection p ∧ halve g (!negative) lo hi = .zero q ∧
      halve f negative lo hi = .zero p) ∨
    ∃ lo' hi', halve g (!negative) lo hi = .half lo' hi' ∧
      halve f negative lo hi = .half lo' hi' := by
  unfold halve
  simp only
  split_ifs with hstuck
  · exact .inl ⟨rfl, rfl⟩
  cases hmid : f (midpoint lo hi) with
  | none =>
      rw [h.eq_none hmid]
      exact .inl ⟨rfl, rfl⟩
  | some y =>
      obtain ⟨z, hz, hopposite⟩ := h.exists_eq_some hmid
      rw [hz]
      simp only [hopposite.beq_zero_eq]
      by_cases hzero : y == 0
      · rw [if_pos hzero, if_pos hzero]
        exact .inr (.inl ⟨⟨_, z⟩, ⟨_, y⟩, ⟨rfl, hopposite⟩, rfl, rfl⟩)
      · have hy : Sample.IsOffAxis ⟨midpoint lo hi, y⟩ := .of_ne_zero (hf _ _ hmid) hzero
        have hsign : decide (z < 0) = !decide (y < 0) := by
          rw [hopposite.eq_neg hzero]
          exact hy.isNegative_reflect
        have hsame : (decide (z < 0) == !negative) = (decide (y < 0) == negative) := by
          rw [hsign]
          cases negative <;> cases decide (y < 0) <;> rfl
        rw [if_neg hzero, if_neg hzero, hsame]
        split_ifs
        · exact .inr (.inr ⟨_, _, rfl, rfl⟩)
        · exact .inr (.inr ⟨_, _, rfl, rfl⟩)

theorem bisect_isReflection (h : g.IsOpposite f) (hf : f.FiniteValued) (negative : Bool) :
    ∀ (steps : ℕ) (lo hi : Float),
      (bisect g (!negative) steps lo hi).IsReflection (bisect f negative steps lo hi) := by
  intro steps
  induction steps with
  | zero => exact fun lo hi ↦ pointAt_isReflection h _
  | succ steps ih =>
      intro lo hi
      rw [bisect, bisect]
      rcases halve_opposite h hf negative lo hi with
        ⟨hg, hf⟩ | ⟨q, p, hpoint, hg, hf⟩ | ⟨lo', hi', hg, hf⟩ <;> rw [hg, hf]
      · exact pointAt_isReflection h _
      · exact hpoint
      · exact ih lo' hi'

end Bisection

theorem GoldenSection.improve_isReflection (h : g.IsOpposite f) (bracket : Bracket) (mid : Sample)
    (steps : ℕ) :
    (improve g .minimizeAbs bracket.reflect mid.reflect steps).IsReflection
      (improve f .minimizeAbs bracket mid steps) := by
  have hcost : (fun x ↦ Goal.minimizeAbs.cost (g x)) = fun x ↦ Goal.minimizeAbs.cost (f x) :=
    funext h.cost_eq
  have hmid : Goal.minimizeAbs.cost (some mid.reflect.y) = Goal.minimizeAbs.cost (some mid.y) :=
    mid.abs_reflect
  have hlo : bracket.reflect.lo.x = bracket.lo.x := rfl
  have hhi : bracket.reflect.hi.x = bracket.hi.x := rfl
  have hstays : (⟨mid.reflect.x, mid.reflect.y⟩ : Point).IsReflection ⟨mid.x, mid.y⟩ :=
    ⟨rfl, .inl rfl⟩
  unfold improve
  rw [hcost, hmid]
  simp only [hlo, hhi]
  generalize hx : minimize (fun x ↦ Goal.minimizeAbs.cost (f x)) steps bracket.lo.x bracket.hi.x = x
  cases hf : f x with
  | none =>
      rw [h.eq_none hf]
      exact hstays
  | some y =>
      obtain ⟨z, hz, hopposite⟩ := h.exists_eq_some hf
      have hy : Goal.minimizeAbs.cost (some z) = Goal.minimizeAbs.cost (some y) := hopposite.abs_eq
      rw [hz]
      simp only [hy]
      split_ifs
      · exact ⟨rfl, hopposite⟩
      · exact hstays

theorem Candidate.refine_isReflection (h : g.IsOpposite f) (hf : f.FiniteValued)
    {recent : List Sample} (hoff : ∀ s ∈ recent, s.IsOffAxis) {c : Candidate}
    (hc : rootCandidate? tol recent = some c) :
    (c.reflect.refine g tol).IsReflection (c.refine f tol) := by
  cases c with
  | exact s => exact ⟨rfl, .inl rfl⟩
  | signChange bracket =>
      have hlo := hoff bracket.lo (rootCandidate?_samples hc _ (by simp [samples]))
      have hpoint := Bisection.bisect_isReflection h hf bracket.lo.isNegative tol.maxIterations
        bracket.lo.x bracket.hi.x
      rw [← hlo.isNegative_reflect] at hpoint
      exact hpoint
  | peak bracket mid goal =>
      obtain rfl := goal_of_rootCandidate? hc
      exact GoldenSection.improve_isReflection h bracket mid tol.maxIterations

/-! ## Scans of opposite graphs -/

namespace Scan

variable {i : ℕ} {s t : State Unit}

/-- Whether one state is the reflection of another one that has seen no zero. -/
structure Mirrors (t s : State Unit) : Prop where
  history_eq : t.history = s.history.reflect
  offAxis : ∀ r ∈ s.history.recent, r.IsOffAxis

theorem mirrors_start (tol : Tolerances) :
    Mirrors (.start crossing tol) (.start crossing tol) where
  history_eq := by
    have hlow : -Binary64.negInfinity = Binary64.infinity := by decide +kernel
    have hhigh : -Binary64.infinity = Binary64.negInfinity := by decide +kernel
    unfold State.start History.reflect History.start
    simp only [hlow, hhigh]
    rfl
  offAxis r hr := nomatch hr

theorem Mirrors.pushed (h : Mirrors t s) {x y : Float} (hy : Sample.IsOffAxis ⟨x, y⟩) :
    Mirrors ⟨t.pushed x (-y), ()⟩ ⟨s.pushed x y, ()⟩ where
  history_eq := by
    unfold State.pushed
    rw [h.history_eq]
    exact s.history.push_reflect ⟨x, y⟩
  offAxis r hr := by
    rcases History.mem_recent_push hr with rfl | hr
    · exact hy
    · exact h.offAxis r hr

theorem Mirrors.visit (h : Mirrors t s) (hg : g.IsOpposite f) (hf : f.FiniteValued)
    (hcap : 3 ≤ s.history.capacity) (hexact : 0 ≤ tol.zeroEps) (x : Float)
    (hzero : ∀ y, f x = some y → y == 0 → crossing.accepts tol (Origin.snap f w tol ⟨x, y⟩)) :
    Sum.LiftRel Point.IsReflection Mirrors (visit crossing g w tol t x)
      (visit crossing f w tol s x) := by
  cases hx : f x with
  | none =>
      rw [visit_of_eq_none hx, visit_of_eq_none (hg.eq_none hx)]
      exact .inr h
  | some y =>
      obtain ⟨z, hz, hopposite⟩ := hg.exists_eq_some hx
      by_cases hyzero : y == 0
      · -- Both samples are zeros, and so roots.
        have hpoint : (Origin.snap g w tol ⟨x, z⟩).IsReflection (Origin.snap f w tol ⟨x, y⟩) :=
          Origin.snap_isReflection hg ⟨rfl, hopposite⟩
        have haccept := hzero y hx hyzero
        have hsmall : y.abs ≤ tol.zeroEps := by
          obtain ⟨hnan, hposition⟩ := beq_zero_iff.mp hyzero
          exact abs_le_of_position_eq_zero hnan hposition hexact
        have hcap' : 3 ≤ t.history.capacity := by
          rw [h.history_eq]
          exact hcap
        rw [visit_of_exact hcap hx hsmall haccept,
          visit_of_exact hcap' hz (hopposite.abs_eq ▸ hsmall)
            ((accepts_crossing_of_isReflection hpoint).trans haccept)]
        exact .inl hpoint
      · have hy : Sample.IsOffAxis ⟨x, y⟩ := .of_ne_zero (hf x y hx) hyzero
        obtain rfl := hopposite.eq_neg hyzero
        have hnext := h.pushed hy
        have hrecent : (t.pushed x (-y)).recent = (s.pushed x y).recent.map Sample.reflect :=
          congrArg History.recent hnext.history_eq
        have hdetected : (t.detected crossing tol x (-y)).1 =
            (s.detected crossing tol x y).1.map Candidate.reflect := by
          change rootCandidate? tol (t.pushed x (-y)).recent = _
          rw [hrecent]
          exact rootCandidate?_reflect tol hnext.offAxis
        rw [visit_of_eq_some hx, visit_of_eq_some hz, hdetected]
        cases hc : (s.detected crossing tol x y).1 with
        | none => exact .inr hnext
        | some c =>
            have hpoint : (Origin.snap g w tol (c.reflect.refine g tol)).IsReflection
                (Origin.snap f w tol (c.refine f tol)) :=
              Origin.snap_isReflection hg (Candidate.refine_isReflection hg hf hnext.offAxis hc)
            simp only [Option.map_some]
            rw [accepts_crossing_of_isReflection hpoint]
            split_ifs
            · exact .inl hpoint
            · exact .inr hnext

/-- Whether no zero that a scan samples on its way is displaced. -/
def KeepsZeros (f : Graph) (w : Window) (tol : Tolerances) : Prop :=
  ∀ i state y, Reached crossing f w tol i state → w.Visits i → f (w.cursor i) = some y → y == 0 →
    ¬ Origin.Displaces f w tol ⟨w.cursor i, y⟩

theorem KeepsZeros.accepts (h : KeepsZeros f w tol) (heps : 0 < tol.eps)
    (hreached : Reached crossing f w tol i s) (hi : w.Visits i) :
    ∀ y, f (w.cursor i) = some y → y == 0 →
      crossing.accepts tol (Origin.snap f w tol ⟨w.cursor i, y⟩) := by
  intro y hy hzero
  obtain ⟨hnan, hposition⟩ := beq_zero_iff.mp hzero
  have hsmall := accepts_of_position_eq_zero (p := ⟨w.cursor i, y⟩) heps hnan hposition
  exact (Origin.accepts_snap_iff (accepts_iff.mp hsmall)).mpr (h i s y hreached hi hy hzero)

theorem Reached.exists_mirrors (hg : g.IsOpposite f) (hf : f.FiniteValued) (heps : 0 < tol.eps)
    (hexact : 0 ≤ tol.zeroEps) (hkeeps : KeepsZeros f w tol)
    (h : Reached crossing f w tol i s) : ∃ t, Reached crossing g w tol i t ∧ Mirrors t s := by
  induction h with
  | start => exact ⟨_, .start, mirrors_start tol⟩
  | @step i s next hreached hi hvisit ih =>
      obtain ⟨t, ht, hmirrors⟩ := ih
      -- The scan of `f` goes on, so it has not come to a zero, and the other one goes on too.
      have hboth := hmirrors.visit hg hf hreached.three_le_capacity hexact (w.cursor i)
        (hkeeps.accepts heps hreached hi)
      rw [hvisit] at hboth
      cases hnext : visit crossing g w tol t (w.cursor i) with
      | inl q =>
          rw [hnext] at hboth
          exact nomatch hboth
      | inr t' =>
          rw [hnext] at hboth
          exact ⟨t', ht.step hi hnext, Sum.liftRel_inr_inr.mp hboth⟩

/-- Two scans of opposite graphs both find nothing, or they find a point and its reflection. -/
theorem scan_opposite (hg : g.IsOpposite f) (hf : f.FiniteValued) (heps : 0 < tol.eps)
    (hexact : 0 ≤ tol.zeroEps) (hkeeps : KeepsZeros f w tol) :
    (∃ p q, scan crossing f w tol = .found p ∧ scan crossing g w tol = .found q ∧
      q.IsReflection p) ∨
    ∃ h h', scan crossing f w tol = .exhausted h ∧ scan crossing g w tol = .exhausted h' := by
  rcases Reached.ends (.start : Reached crossing f w tol 1 _) with
    ⟨j, s, p, hreached, hj, hvisit, hscan⟩ | ⟨j, s, hreached, hj, hscan⟩
  · obtain ⟨t, ht, hmirrors⟩ := hreached.exists_mirrors hg hf heps hexact hkeeps
    have hboth := hmirrors.visit hg hf hreached.three_le_capacity hexact (w.cursor j)
      (hkeeps.accepts heps hreached hj)
    rw [hvisit] at hboth
    cases hend : visit crossing g w tol t (w.cursor j) with
    | inl q =>
        rw [hend] at hboth
        exact .inl ⟨p, q, hscan, ht.scan_eq_found hj hend, Sum.liftRel_inl_inl.mp hboth⟩
    | inr t' =>
        rw [hend] at hboth
        exact nomatch hboth
  · obtain ⟨t, ht, -⟩ := hreached.exists_mirrors hg hf heps hexact hkeeps
    exact .inr ⟨_, _, hscan, by rw [ht.scan_eq, run_of_not_visits hj]⟩

end Scan

/-! ## Intersections -/

namespace Search

theorem root_opposite (hg : g.IsOpposite f) (hf : f.FiniteValued) (hexact : 0 ≤ tol.zeroEps)
    (hkeeps : Scan.KeepsZeros f w tol) : (root g w tol).SamePlace (root f w tol) := by
  by_cases heps : 0 < tol.eps
  · apply Point.samePlace_of_abscissa_eq
    unfold root
    split_ifs
    · rcases Scan.scan_opposite hg hf heps hexact hkeeps with
        ⟨p, q, hp, hq, hpoint⟩ | ⟨h, h', hscan, hscan'⟩
      · rw [hp, hq]
        exact hpoint.1
      · rw [hscan, hscan']
    · rfl
  · -- Without a tolerance nothing is a root.
    exact Point.samePlace_of_not_isFound (fun h ↦ heps (eps_pos_of_root_found h))
      fun h ↦ heps (eps_pos_of_root_found h)

/-- Two graphs intersect at the same place in both orders, unless their difference is zero at a
cursor and this zero is displaced. -/
theorem intersection_comm (f g : Graph) (w : Window) (tol : Tolerances)
    (hfault : Configuration.fault? tol = none)
    (hkeeps : Scan.KeepsZeros (f.difference g) w tol) :
    (intersection f g w tol).SamePlace (intersection g f w tol) := by
  obtain ⟨⟨-, hexact, -⟩, -⟩ := Configuration.fault?_eq_none.mp hfault
  have hroots := root_opposite (Graph.isOpposite_difference f g)
    (Graph.finiteValued_difference f g) (Configuration.le_of_isNonnegative hexact) hkeeps
  have hfg := intersection_samePlace_root f g w tol
  have hgf := intersection_samePlace_root g f w tol
  exact hfg.trans (hroots.symm.trans hgf.symm)

end Search

/-! ## A zero that is displaced -/

/-- A parabola that opens downwards, with a zero a millionth after the origin and another one half a
unit further on: `-100 * (a - c) * (a - (0.5 + c))`. -/
def parabola : Expr :=
  .binary .mul
    (.binary .mul (.number (-100))
      (.binary .sub (.symbol "a") (.number 0.00000095367431640625)))
    (.binary .sub (.symbol "a") (.number 0.50000095367431640625))

def Window.acrossParabola : Window := ⟨-0.99999904632568359375, 1, 1.5⟩

namespace Scan

/-- Whatever order the graphs are in, the first zero is rejected and stays in the history. -/
theorem reached_two_of_zero {d : Graph} (hzero : d (Window.acrossParabola.cursor 1) = some 0)
    (hreject : ¬ crossing.accepts {} (Origin.snap d .acrossParabola {}
      ⟨Window.acrossParabola.cursor 1, 0⟩)) :
    Reached crossing d .acrossParabola {} 2
      ⟨State.pushed (.start crossing {} : State Unit) (Window.acrossParabola.cursor 1) 0, ()⟩ := by
  have hstart : Reached crossing d .acrossParabola {} 1 (.start crossing {}) := .start
  exact hstart.step (Window.visits_of_cursor_le (by norm_num) (by decide +kernel))
    (visit_of_rejected (c := .exact ⟨Window.acrossParabola.cursor 1, 0⟩) hzero rfl hreject)

end Scan

namespace Search

theorem not_isFound_intersection_zero_parabola :
    ¬ (intersection (Expr.number 0).plot parabola.plot .acrossParabola {}).isFound := by
  have htwo := Scan.reached_two_of_zero (d := (Expr.number 0).plot.difference parabola.plot)
    (by decide +kernel) (by decide +kernel)
  have hthird := htwo.step (Window.visits_of_cursor_le (by norm_num) (by decide +kernel))
    (Scan.visit_of_no_candidate (y := 50) (by decide +kernel)
      (Option.isNone_iff_eq_none.mp (by decide +kernel)))
  have hend : ¬ Window.acrossParabola.Visits 3 := fun h ↦ h.2 (by decide +kernel)
  intro hfound
  obtain ⟨hroot, -⟩ := intersection_found hfound
  obtain ⟨-, p, hscan, -⟩ := root_found hroot
  rw [hthird.scan_eq, Scan.run_of_not_visits hend] at hscan
  exact nomatch hscan

theorem isFound_intersection_parabola_zero :
    (intersection parabola.plot (Expr.number 0).plot .acrossParabola {}).isFound := by
  have htwo := Scan.reached_two_of_zero (d := parabola.plot.difference (Expr.number 0).plot)
    (by decide +kernel) (by decide +kernel)
  -- The middle of the two cursors is the second zero.
  have haccept : crossing.accepts {} (Origin.snap
      (parabola.plot.difference (Expr.number 0).plot) .acrossParabola {}
      (Bisection.bisect (parabola.plot.difference (Expr.number 0).plot) false 60
        (Window.acrossParabola.cursor 1) (Window.acrossParabola.cursor 2))) := by decide +kernel
  have hlarge : ¬ (-50 : Float).abs ≤ ({} : Tolerances).zeroEps := by decide +kernel
  have hvisit := Scan.visit_of_signChange htwo.three_le_capacity
    (History.recent_push_of_nil (by decide) rfl) (by decide +kernel) hlarge (by decide +kernel)
    haccept
  have hscan := htwo.scan_eq_found
    (Window.visits_of_cursor_le (by norm_num) (by decide +kernel)) hvisit
  refine (intersection_samePlace_root _ _ _ _).isFound_iff.mpr ?_
  rw [root_eq_of_scan (by decide +kernel) hscan]
  decide +kernel

/-- The broken line meets the axis at the same place in both orders. The parabola meets it in one
order only: its first zero is displaced, and counts as positive whichever side is up. -/
theorem intersection_comm_brokenLine_and_not_parabola :
    (Configuration.fault? {} = none ∧
      Scan.KeepsZeros (brokenLine.difference (Graph.const 0)) ⟨0, 1, 4⟩ {} ∧
      (intersection brokenLine (Graph.const 0) ⟨0, 1, 4⟩ {}).isFound ∧
      (intersection brokenLine (Graph.const 0) ⟨0, 1, 4⟩ {}).SamePlace
        (intersection (Graph.const 0) brokenLine ⟨0, 1, 4⟩ {})) ∧
    ¬ (intersection (Expr.number 0).plot parabola.plot .acrossParabola {}).isFound ∧
      (intersection parabola.plot (Expr.number 0).plot .acrossParabola {}).isFound := by
  have hfault : Configuration.fault? {} = none :=
    Configuration.fault?_eq_none.mpr (by decide +kernel)
  have hkeeps : Scan.KeepsZeros (brokenLine.difference (Graph.const 0)) ⟨0, 1, 4⟩ {} := by
    intro i state y _ _ _ _ hdisplaced
    exact absurd hdisplaced.inWindow (by decide +kernel)
  have hfound : (intersection brokenLine (Graph.const 0) ⟨0, 1, 4⟩ {}).isFound := by
    refine (intersection_samePlace_root _ _ _ _).isFound_iff.mpr ?_
    rw [Graph.difference_axis finiteValued_brokenLine, root_brokenLine]
    decide +kernel
  exact ⟨⟨hfault, hkeeps, hfound, intersection_comm brokenLine (Graph.const 0) ⟨0, 1, 4⟩ {} hfault
    hkeeps⟩, not_isFound_intersection_zero_parabola, isFound_intersection_parabola_zero⟩

end Search

end CurveSearch
