import CurveSearch.Proofs.Binary64.Monotone
import CurveSearch.Refine.Basic
import CurveSearch.Refine.Origin

/-!
# Where refinement ends

Whatever a candidate is, its refined point has two properties. It lies between any two bounds that
hold the samples of the candidate, unless its abscissa overflowed and is not finite; and it is a
point of the graph, unless the graph has a gap there and its value is not a number. Both are
invariants of one step of the refiners.
-/

namespace CurveSearch

open Grid

def Between (a b x : Float) : Prop := a ≤ x ∧ x ≤ b

namespace Between

variable {a b x : Float}

theorem isFinite (ha : a.isFinite) (hb : b.isFinite) (h : Between a b x) : x.isFinite :=
  isFinite_of_le_of_le ha hb h.1 h.2

theorem position_le (h : Between a b x) : position a ≤ position x ∧ position x ≤ position b :=
  ⟨(le_iff.mp h.1).2.2, (le_iff.mp h.2).2.2⟩

end Between

/-! ## Midpoints -/

namespace Bisection

variable {f : Graph} {negative : Bool} {a b lo hi lo' hi' : Float}

/-- A midpoint may overflow, but it is a number. -/
theorem isNaN_midpoint (hlo : lo.isFinite) (hhi : hi.isFinite) :
    (midpoint lo hi).isNaN = false := by
  have hsum := isNearest_add hlo hhi
  by_cases hfin : (lo + hi).isFinite
  · exact (isNearest_mul isFinite_half hfin).isNaN_eq
  · exact isNaN_half_mul hsum.isNaN_eq

/-- A finite midpoint lies between all bounds of the ends: twice a bound is a double, so the sum of
the ends is not rounded beyond it. -/
theorem midpoint_between (hlo : Between a b lo) (hhi : Between a b hi)
    (hfin : (midpoint lo hi).isFinite) : Between a b (midpoint lo hi) := by
  have hsumfin := (isFinite_of_mul hfin).2
  obtain ⟨hlofin, hhifin⟩ := isFinite_of_add hsumfin
  have hsum := isNearest_add hlofin hhifin
  have hmid := isNearest_mul isFinite_half hsumfin
  have hround : position (lo + hi) = Grid.round (position lo + position hi) := by
    have hlt := abs_position_lt hsumfin
    rw [hsum.position_eq] at hlt ⊢
    exact nearest_eq_round hlt
  have hlow : 2 * position a ≤ position (lo + hi) := by
    rw [hround]
    exact le_round_of_le (onGrid_position a).two_mul
      (by linarith [hlo.position_le.1, hhi.position_le.1])
  have hhigh : position (lo + hi) ≤ 2 * position b := by
    rw [hround]
    exact round_le_of_le (onGrid_position b).two_mul
      (by linarith [hlo.position_le.2, hhi.position_le.2])
  have hmideq : position (midpoint lo hi) = nearest (1 / 2 * position (lo + hi)) := by
    rw [← position_half]
    exact hmid.position_eq
  refine ⟨le_iff.mpr ⟨(le_iff.mp hlo.1).1, hmid.isNaN_eq, ?_⟩,
    le_iff.mpr ⟨hmid.isNaN_eq, (le_iff.mp hlo.2).2.1, ?_⟩⟩
  · rw [hmideq]
    exact le_nearest_of_le (onGrid_position a) (abs_position_le a) (by linarith)
  · rw [hmideq]
    exact nearest_le_of_le (onGrid_position b) (abs_position_le b) (by linarith)

theorem isFinite_midpoint (ha : (a + a).isFinite) (hb : (b + b).isFinite) (hlo : Between a b lo)
    (hhi : Between a b hi) : (midpoint lo hi).isFinite := by
  obtain ⟨hafin, -⟩ := isFinite_of_add ha
  obtain ⟨hbfin, -⟩ := isFinite_of_add hb
  have hsum := isNearest_add (hlo.isFinite hafin hbfin) (hhi.isFinite hafin hbfin)
  have hlow : position (a + a) ≤ position (lo + hi) := by
    rw [(isNearest_add hafin hafin).position_eq, hsum.position_eq]
    exact nearest_mono (add_le_add hlo.position_le.1 hhi.position_le.1)
  have hhigh : position (lo + hi) ≤ position (b + b) := by
    rw [(isNearest_add hbfin hbfin).position_eq, hsum.position_eq]
    exact nearest_mono (add_le_add hlo.position_le.2 hhi.position_le.2)
  have hsumfin : (lo + hi).isFinite :=
    isFinite_of_le_of_le ha hb (le_iff.mpr ⟨isNaN_of_isFinite ha, hsum.isNaN_eq, hlow⟩)
      (le_iff.mpr ⟨hsum.isNaN_eq, isNaN_of_isFinite hb, hhigh⟩)
  exact isFinite_half_mul hsumfin

theorem halve_cases (f : Graph) (negative : Bool) (lo hi : Float) :
    halve f negative lo hi = .stuck ∨
    (∃ y, f (midpoint lo hi) = some y ∧ halve f negative lo hi = .zero ⟨midpoint lo hi, y⟩) ∨
    ∃ lo' hi', halve f negative lo hi = .half lo' hi' := by
  unfold halve
  simp only
  split_ifs
  · exact .inl rfl
  · cases hf : f (midpoint lo hi) with
    | none => exact .inl rfl
    | some y =>
        simp only
        split_ifs
        · exact .inr (.inl ⟨y, rfl, rfl⟩)
        · exact .inr (.inr ⟨_, _, rfl⟩)
        · exact .inr (.inr ⟨_, _, rfl⟩)

/-- A bracket is halved at a midpoint inside it where the graph has a value other than zero, and the
end on the side of that value moves. -/
theorem halve_eq_half (h : halve f negative lo hi = .half lo' hi') :
    ¬ midpoint lo hi ≤ lo ∧ ¬ hi ≤ midpoint lo hi ∧ ∃ y, f (midpoint lo hi) = some y ∧ ¬ y == 0 ∧
      (decide (y < 0) = negative ∧ lo' = midpoint lo hi ∧ hi' = hi ∨
        decide (y < 0) ≠ negative ∧ lo' = lo ∧ hi' = midpoint lo hi) := by
  unfold halve at h
  simp only at h
  split_ifs at h with hstuck
  simp only [Bool.or_eq_true, decide_eq_true_eq, not_or] at hstuck
  refine ⟨hstuck.1, hstuck.2, ?_⟩
  cases hf : f (midpoint lo hi) with
  | none =>
      rw [hf] at h
      exact nomatch h
  | some y =>
      rw [hf] at h
      simp only at h
      split_ifs at h with hzero hside
      · cases h
        exact ⟨y, rfl, hzero, .inl ⟨eq_of_beq hside, rfl, rfl⟩⟩
      · cases h
        exact ⟨y, rfl, hzero, .inr ⟨fun heq ↦ hside (beq_iff_eq.mpr heq), rfl, rfl⟩⟩

theorem ends_of_half (h : halve f negative lo hi = .half lo' hi') :
    lo' = midpoint lo hi ∧ hi' = hi ∨ lo' = lo ∧ hi' = midpoint lo hi := by
  obtain ⟨-, -, y, -, -, hends⟩ := halve_eq_half h
  exact hends.imp And.right And.right

theorem halve_eq_zero {p : Point} (h : halve f negative lo hi = .zero p) :
    ¬ midpoint lo hi ≤ lo ∧ ¬ hi ≤ midpoint lo hi ∧ p.abscissa = midpoint lo hi ∧
      f p.abscissa = some p.value ∧ p.value == 0 := by
  unfold halve at h
  simp only at h
  split_ifs at h with hstuck
  simp only [Bool.or_eq_true, decide_eq_true_eq, not_or] at hstuck
  refine ⟨hstuck.1, hstuck.2, ?_⟩
  cases hf : f (midpoint lo hi) with
  | none =>
      rw [hf] at h
      exact nomatch h
  | some y =>
      rw [hf] at h
      simp only at h
      split_ifs at h with hzero
      cases h
      exact ⟨rfl, hf, hzero⟩

theorem inside_of_not_le (hlo : lo.isFinite) (hhi : hi.isFinite) (hlow : ¬ midpoint lo hi ≤ lo)
    (hhigh : ¬ hi ≤ midpoint lo hi) : lo < midpoint lo hi ∧ midpoint lo hi < hi := by
  have hnan := isNaN_midpoint hlo hhi
  rw [not_le_iff hnan (isNaN_of_isFinite hlo)] at hlow
  rw [not_le_iff (isNaN_of_isFinite hhi) hnan] at hhigh
  exact ⟨hlow, hhigh⟩

theorem inside_of_half (hlo : lo.isFinite) (hhi : hi.isFinite)
    (h : halve f negative lo hi = .half lo' hi') : lo < midpoint lo hi ∧ midpoint lo hi < hi := by
  obtain ⟨hlow, hhigh, -⟩ := halve_eq_half h
  exact inside_of_not_le hlo hhi hlow hhigh

theorem exists_half_of_inside {y : Float} (hleft : lo < midpoint lo hi)
    (hright : midpoint lo hi < hi) (hf : f (midpoint lo hi) = some y) (hy : ¬ y == 0) :
    ∃ lo' hi', halve f negative lo hi = .half lo' hi' := by
  have hnan := (lt_iff.mp hleft).2.1
  have hlow : ¬ midpoint lo hi ≤ lo := (not_le_iff hnan (lt_iff.mp hleft).1).mpr hleft
  have hhigh : ¬ hi ≤ midpoint lo hi := (not_le_iff (lt_iff.mp hright).2.1 hnan).mpr hright
  have hinside : ¬ (decide (midpoint lo hi ≤ lo) || decide (hi ≤ midpoint lo hi)) := by
    simp [hlow, hhigh]
  unfold halve
  simp only
  rw [if_neg hinside, hf]
  simp only
  rw [if_neg hy]
  split_ifs
  · exact ⟨_, _, rfl⟩
  · exact ⟨_, _, rfl⟩

theorem half_between (ha : a.isFinite) (hb : b.isFinite) (hlo : Between a b lo)
    (hhi : Between a b hi) (h : halve f negative lo hi = .half lo' hi') :
    Between a b lo' ∧ Between a b hi' := by
  obtain ⟨hlow, hhigh⟩ := inside_of_half (hlo.isFinite ha hb) (hhi.isFinite ha hb) h
  have hmid : Between a b (midpoint lo hi) :=
    ⟨Grid.le_trans hlo.1 (Grid.le_of_lt hlow), Grid.le_trans (Grid.le_of_lt hhigh) hhi.2⟩
  rcases ends_of_half h with ⟨rfl, rfl⟩ | ⟨rfl, rfl⟩
  · exact ⟨hmid, hhi⟩
  · exact ⟨hlo, hmid⟩

/-- Whether an abscissa is the midpoint of two abscissas between the bounds. -/
def IsMidpoint (a b x : Float) : Prop :=
  ∃ lo hi, Between a b lo ∧ Between a b hi ∧ x = midpoint lo hi

namespace IsMidpoint

variable {x : Float}

theorem isNaN_eq (ha : a.isFinite) (hb : b.isFinite) (h : IsMidpoint a b x) : x.isNaN = false := by
  obtain ⟨lo, hi, hlo, hhi, rfl⟩ := h
  exact isNaN_midpoint (hlo.isFinite ha hb) (hhi.isFinite ha hb)

theorem between (h : IsMidpoint a b x) (hfin : x.isFinite) : Between a b x := by
  obtain ⟨lo, hi, hlo, hhi, rfl⟩ := h
  exact midpoint_between hlo hhi hfin

theorem isFinite (ha : (a + a).isFinite) (hb : (b + b).isFinite) (h : IsMidpoint a b x) :
    x.isFinite := by
  obtain ⟨lo, hi, hlo, hhi, rfl⟩ := h
  exact isFinite_midpoint ha hb hlo hhi

end IsMidpoint

theorem bisect_isMidpoint (ha : a.isFinite) (hb : b.isFinite) :
    ∀ (steps : ℕ) {lo hi : Float}, Between a b lo → Between a b hi →
      IsMidpoint a b (bisect f negative steps lo hi).abscissa := by
  intro steps
  induction steps with
  | zero => exact fun hlo hhi ↦ ⟨_, _, hlo, hhi, rfl⟩
  | succ steps ih =>
      intro lo hi hlo hhi
      rw [bisect]
      rcases halve_cases f negative lo hi with
        hstep | ⟨y, -, hstep⟩ | ⟨lo', hi', hstep⟩ <;> rw [hstep]
      · exact ⟨lo, hi, hlo, hhi, rfl⟩
      · exact ⟨lo, hi, hlo, hhi, rfl⟩
      · obtain ⟨hlo', hhi'⟩ := half_between ha hb hlo hhi hstep
        exact ih hlo' hhi'

end Bisection

/-! ## Points of the graph -/

/-- A point of a graph, or a point over a gap whose value is not a number. -/
def Point.IsOn (f : Graph) (p : Point) : Prop := p.value = (f p.abscissa).getD Binary64.nan

theorem Point.isOn_of_eq_some {f : Graph} {x y : Float} (h : f x = some y) :
    Point.IsOn f ⟨x, y⟩ := by
  rw [IsOn, h, Option.getD_some]

theorem Point.IsOn.eq_some {f : Graph} {p : Point} (h : p.IsOn f) (hnan : p.value.isNaN = false) :
    f p.abscissa = some p.value := by
  unfold IsOn at h
  cases hf : f p.abscissa with
  | none =>
      rw [hf, Option.getD_none] at h
      rw [h] at hnan
      exact absurd (isNaN_nan.symm.trans hnan) (by decide)
  | some y =>
      rw [hf, Option.getD_some] at h
      rw [h]

def Sample.IsOf (f : Graph) (s : Sample) : Prop := f s.x = some s.y

namespace Bisection

theorem pointAt_isOn (f : Graph) (x : Float) : (pointAt f x).IsOn f := rfl

theorem bisect_isOn (f : Graph) (negative : Bool) :
    ∀ (steps : ℕ) (lo hi : Float), (bisect f negative steps lo hi).IsOn f := by
  intro steps
  induction steps with
  | zero => exact fun lo hi ↦ pointAt_isOn f _
  | succ steps ih =>
      intro lo hi
      rw [bisect]
      rcases halve_cases f negative lo hi with
        hstep | ⟨y, hy, hstep⟩ | ⟨lo', hi', hstep⟩ <;> rw [hstep]
      · exact pointAt_isOn f _
      · exact Point.isOn_of_eq_some hy
      · exact ih lo' hi'

end Bisection

/-! ## Golden-section search -/

namespace GoldenSection

variable {a b : Float} (cost : Float → Float)

namespace Division

theorem shrink_ends (s : Division) :
    ((s.shrink cost).a = s.a ∧ (s.shrink cost).b = s.d) ∨
    ((s.shrink cost).a = s.c ∧ (s.shrink cost).b = s.b) ∨
    ((s.shrink cost).a = s.c ∧ (s.shrink cost).b = s.d) := by
  unfold shrink
  split_ifs
  · exact .inl ⟨rfl, rfl⟩
  · exact .inr (.inl ⟨rfl, rfl⟩)
  · exact .inr (.inr ⟨rfl, rfl⟩)

theorem shrink_between {s : Division} (hord : s.isOrdered) (ha : Between a b s.a)
    (hb : Between a b s.b) : Between a b (s.shrink cost).a ∧ Between a b (s.shrink cost).b := by
  simp only [isOrdered, Bool.and_eq_true, decide_eq_true_eq] at hord
  obtain ⟨⟨hac, hcd⟩, hdb⟩ := hord
  have hc : Between a b s.c := ⟨Grid.le_trans ha.1 (Grid.le_of_lt hac),
    Grid.le_trans (Grid.le_of_lt hcd) (Grid.le_trans (Grid.le_of_lt hdb) hb.2)⟩
  have hd : Between a b s.d := ⟨Grid.le_trans hc.1 (Grid.le_of_lt hcd),
    Grid.le_trans (Grid.le_of_lt hdb) hb.2⟩
  rcases shrink_ends cost s with ⟨h₁, h₂⟩ | ⟨h₁, h₂⟩ | ⟨h₁, h₂⟩ <;> rw [h₁, h₂]
  · exact ⟨ha, hd⟩
  · exact ⟨hc, hb⟩
  · exact ⟨hc, hd⟩

theorem narrow_between :
    ∀ (steps : ℕ) {s : Division}, Between a b s.a → Between a b s.b →
      Between a b (s.narrow cost steps).a ∧ Between a b (s.narrow cost steps).b := by
  intro steps
  induction steps with
  | zero => exact fun ha hb ↦ ⟨ha, hb⟩
  | succ steps ih =>
      intro s ha hb
      rw [narrow]
      split_ifs with hord
      · obtain ⟨ha', hb'⟩ := shrink_between cost hord ha hb
        exact ih ha' hb'
      · exact ⟨ha, hb⟩

end Division

theorem minimize_isMidpoint {steps : ℕ} {lo hi : Float} (hlo : Between a b lo)
    (hhi : Between a b hi) : Bisection.IsMidpoint a b (minimize cost steps lo hi) := by
  obtain ⟨ha, hb⟩ := Division.narrow_between cost steps
    (s := Division.ofEnds cost lo hi) hlo hhi
  exact ⟨_, _, ha, hb, rfl⟩

/-- An improved peak is the sample, or a strictly better point of the graph at the abscissa that the
search ends with. -/
theorem improve_cases (f : Graph) (goal : Goal) (bracket : Bracket) (mid : Sample) (steps : ℕ) :
    improve f goal bracket mid steps = ⟨mid.x, mid.y⟩ ∨
    ∃ x y, x = minimize (fun x ↦ goal.cost (f x)) steps bracket.lo.x bracket.hi.x ∧
      f x = some y ∧ goal.cost (some y) < goal.cost (some mid.y) ∧
      improve f goal bracket mid steps = ⟨x, y⟩ := by
  unfold improve
  simp only
  split
  · next y hy =>
      split_ifs with hbetter
      · exact .inr ⟨_, y, rfl, hy, hbetter, rfl⟩
      · exact .inl rfl
  · exact .inl rfl

end GoldenSection

/-! ## Candidates -/

namespace Candidate

/-- The samples that a candidate is made of. -/
def samples : Candidate → List Sample
  | .exact s => [s]
  | .signChange bracket => [bracket.lo, bracket.hi]
  | .peak bracket mid _ => [bracket.lo, mid, bracket.hi]

variable {f : Graph} {tol : Tolerances} {a b : Float} {c : Candidate}

theorem refine_cases (ha : a.isFinite) (hb : b.isFinite) (h : ∀ s ∈ c.samples, Between a b s.x) :
    (∃ s ∈ c.samples, (c.refine f tol).abscissa = s.x) ∨
      Bisection.IsMidpoint a b (c.refine f tol).abscissa := by
  cases c with
  | exact s => exact .inl ⟨s, by simp [samples], rfl⟩
  | signChange bracket =>
      exact .inr (Bisection.bisect_isMidpoint ha hb _ (h _ (by simp [samples]))
        (h _ (by simp [samples])))
  | peak bracket mid goal =>
      rw [refine]
      rcases GoldenSection.improve_cases f goal bracket mid tol.maxIterations with
        heq | ⟨x, y, rfl, -, -, heq⟩ <;> rw [heq]
      · exact .inl ⟨mid, by simp [samples], rfl⟩
      · exact .inr (GoldenSection.minimize_isMidpoint _ (h _ (by simp [samples]))
          (h _ (by simp [samples])))

theorem isNaN_refine (ha : a.isFinite) (hb : b.isFinite) (h : ∀ s ∈ c.samples, Between a b s.x) :
    (c.refine f tol).abscissa.isNaN = false := by
  rcases refine_cases ha hb h with ⟨s, hs, heq⟩ | hmid
  · rw [heq]
    exact isNaN_of_isFinite ((h s hs).isFinite ha hb)
  · exact hmid.isNaN_eq ha hb

theorem refine_between (ha : a.isFinite) (hb : b.isFinite)
    (h : ∀ s ∈ c.samples, Between a b s.x) (hfin : (c.refine f tol).abscissa.isFinite) :
    Between a b (c.refine f tol).abscissa := by
  rcases refine_cases ha hb h with ⟨s, hs, heq⟩ | hmid
  · rw [heq]
    exact h s hs
  · exact hmid.between hfin

theorem isFinite_refine (ha : (a + a).isFinite) (hb : (b + b).isFinite)
    (h : ∀ s ∈ c.samples, Between a b s.x) : (c.refine f tol).abscissa.isFinite := by
  obtain ⟨hafin, -⟩ := isFinite_of_add ha
  obtain ⟨hbfin, -⟩ := isFinite_of_add hb
  rcases refine_cases hafin hbfin h with ⟨s, hs, heq⟩ | hmid
  · rw [heq]
    exact (h s hs).isFinite hafin hbfin
  · exact hmid.isFinite ha hb

theorem refine_isOn (h : ∀ s ∈ c.samples, s.IsOf f) : (c.refine f tol).IsOn f := by
  cases c with
  | exact s => exact Point.isOn_of_eq_some (h s (by simp [samples]))
  | signChange bracket => exact Bisection.bisect_isOn f _ _ _ _
  | peak bracket mid goal =>
      rw [refine]
      rcases GoldenSection.improve_cases f goal bracket mid tol.maxIterations with
        heq | ⟨x, y, -, hy, -, heq⟩ <;> rw [heq]
      · exact Point.isOn_of_eq_some (h mid (by simp [samples]))
      · exact Point.isOn_of_eq_some hy

end Candidate

/-! ## Snapping -/

/-- The bound below which snapping takes a number as zero. -/
def Tolerances.noise (tol : Tolerances) (step : Float) : Float := step * tol.snapEps

namespace Origin

variable {f : Graph} {w : Window} {tol : Tolerances} {p : Point}

/-- Noise is a number of another position than zero that is nearer to zero than the bound. -/
theorem isNoise_iff {noise v : Float} :
    isNoise noise v ↔
      v.isNaN = false ∧ noise.isNaN = false ∧ position v ≠ 0 ∧ |position v| < position noise := by
  unfold isNoise
  rw [Bool.and_eq_true, bne, Bool.not_eq_true', ← Bool.not_eq_true, beq_iff, decide_eq_true_eq,
    lt_iff, isNaN_abs, position_abs, position_zero]
  constructor
  · rintro ⟨hne, hv, hnoise, hlt⟩
    exact ⟨hv, hnoise, fun hzero ↦ hne ⟨hv, rfl, hzero⟩, hlt⟩
  · rintro ⟨hv, hnoise, hne, hlt⟩
    exact ⟨fun h ↦ hne h.2.2, hv, hnoise, hlt⟩

theorem abs_lt_of_isNoise {noise v : Float} (h : isNoise noise v) : v.abs < noise := by
  obtain ⟨hnan, hbound, -, hlt⟩ := isNoise_iff.mp h
  exact lt_iff.mpr ⟨(isNaN_abs v).trans hnan, hbound, (position_abs v).trans_lt hlt⟩

theorem isNoise_or_zero_of_abs_lt {noise v : Float} (h : v.abs < noise) :
    isNoise noise v ∨ v.isNaN = false ∧ position v = 0 := by
  obtain ⟨hnan, hbound, hlt⟩ := lt_iff.mp h
  rw [isNaN_abs] at hnan
  rw [position_abs] at hlt
  by_cases hzero : position v = 0
  · exact .inr ⟨hnan, hzero⟩
  · exact .inl (isNoise_iff.mpr ⟨hnan, hbound, hzero, hlt⟩)

theorem snap_eq (f : Graph) (w : Window) (tol : Tolerances) (p : Point) :
    snap f w tol p = snapValue (tol.noise w.step) (snapAbscissa f w (tol.noise w.step) p) := rfl

theorem snap_eq_self (h : ¬ 0 < tol.noise w.step) : snap f w tol p = p := by
  have hnoise : ∀ v, ¬ isNoise (tol.noise w.step) v := by
    intro v hv
    obtain ⟨-, hnan, -, hlt⟩ := isNoise_iff.mp hv
    exact h (lt_iff.mpr ⟨rfl, hnan, (abs_nonneg _).trans_lt hlt⟩)
  rw [snap_eq]
  have habscissa : snapAbscissa f w (tol.noise w.step) p = p := by
    unfold snapAbscissa
    rw [if_neg (by simp [hnoise])]
  rw [habscissa]
  unfold snapValue
  rw [if_neg (hnoise _)]

theorem snapAbscissa_cases (f : Graph) (w : Window) (tol : Float) (p : Point) :
    snapAbscissa f w tol p = p ∨
    ∃ y, inWindow w ∧ isNoise tol p.abscissa ∧ f 0 = some y ∧ snapAbscissa f w tol p = ⟨0, y⟩ := by
  unfold snapAbscissa
  split_ifs with h
  · rw [Bool.and_eq_true] at h
    split
    · next y hy => exact .inr ⟨y, h.1, h.2, hy, rfl⟩
    · exact .inl rfl
  · exact .inl rfl

theorem snapAbscissa_isOn (w : Window) (noise : Float) (h : p.IsOn f) :
    (snapAbscissa f w noise p).IsOn f := by
  rcases snapAbscissa_cases f w noise p with heq | ⟨y, -, -, hy, heq⟩ <;> rw [heq]
  · exact h
  · exact Point.isOn_of_eq_some hy

@[simp] theorem abscissa_snapValue (noise : Float) (p : Point) :
    (snapValue noise p).abscissa = p.abscissa := by
  unfold snapValue
  split_ifs <;> rfl

theorem snapValue_of_isNoise {noise : Float} (h : isNoise noise p.value) :
    snapValue noise p = ⟨p.abscissa, 0⟩ := if_pos h

theorem snapValue_of_not_isNoise {noise : Float} (h : ¬ isNoise noise p.value) :
    snapValue noise p = p := if_neg h

theorem abscissa_snap (f : Graph) (w : Window) (tol : Tolerances) (p : Point) :
    (snap f w tol p).abscissa = (snapAbscissa f w (tol.noise w.step) p).abscissa := by
  rw [snap_eq, abscissa_snapValue]

/-- Snapping leaves the abscissa alone or moves it to the origin, which is then in the window. -/
theorem snap_abscissa_cases (f : Graph) (w : Window) (tol : Tolerances) (p : Point) :
    (snap f w tol p).abscissa = p.abscissa ∨
      inWindow w ∧ (snap f w tol p).abscissa = 0 := by
  rw [abscissa_snap]
  rcases snapAbscissa_cases f w (tol.noise w.step) p with heq | ⟨y, hin, -, -, heq⟩ <;> rw [heq]
  · exact .inl rfl
  · exact .inr ⟨hin, rfl⟩

theorem isFinite_abscissa_snap (h : p.abscissa.isFinite) :
    (snap f w tol p).abscissa.isFinite := by
  rcases snap_abscissa_cases f w tol p with heq | ⟨-, heq⟩ <;> rw [heq]
  · exact h
  · exact isFinite_zero

end Origin

end CurveSearch
