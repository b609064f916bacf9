import CurveSearch.Proofs.Binary64.Opposite
import CurveSearch.Proofs.Expr.Evaluation
import CurveSearch.Proofs.Scan
import CurveSearch.Search

/-!
# Maxima and minima

A minimum of a graph is a maximum of the graph turned upside down, and a search finds it so. The
reflection of a scan in the axis is the scan of the reflected graph for the opposite extremum: each
state goes to the reflected state, bit for bit, since the detector compares heights, refinement
compares costs, and both are the same numbers on the two sides. Only a value that is snapped to zero
keeps its sign.
-/

namespace CurveSearch

open Grid

/-! ## Reflected data -/

def Extremum.opposite : Extremum → Extremum
  | .maximum => .minimum
  | .minimum => .maximum

def Goal.opposite : Goal → Goal
  | .minimize => .maximize
  | .maximize => .minimize
  | .minimizeAbs => .minimizeAbs

def Graph.reflect (f : Graph) : Graph := fun x ↦ (f x).map (- ·)

def Sample.reflect (s : Sample) : Sample := ⟨s.x, -s.y⟩

def Bracket.reflect (b : Bracket) : Bracket := ⟨b.lo.reflect, b.hi.reflect⟩

def Point.reflect (p : Point) : Point := ⟨p.abscissa, -p.value⟩

def Candidate.reflect : Candidate → Candidate
  | .exact s => .exact s.reflect
  | .signChange bracket => .signChange bracket.reflect
  | .peak bracket mid goal => .peak bracket.reflect mid.reflect goal.opposite

def Detector.Phase.reflect : Detector.Phase → Detector.Phase
  | .fresh => .fresh
  | .low trough => .low trough.reflect
  | .high before best => .high before.reflect best.reflect

def History.reflect (h : History) : History :=
  { h with low := -h.high, high := -h.low, recent := h.recent.map Sample.reflect }

def Verdict.reflect : Verdict → Verdict
  | .flat value => .flat (-value)
  | verdict => verdict

def Scan.State.reflect (state : Scan.State Detector.Phase) : Scan.State Detector.Phase :=
  ⟨state.history.reflect, state.detector.reflect⟩

/-- Whether two points lie over one abscissa with opposite values. The sign of a zero is ignored. -/
def Point.IsReflection (q p : Point) : Prop :=
  q.abscissa = p.abscissa ∧ (q.value = -p.value ∨ q.value == 0 ∧ p.value == 0)

variable {f : Graph} {w : Window} {tol : Tolerances}

theorem Point.isReflection_reflect (p : Point) : p.reflect.IsReflection p := ⟨rfl, .inl rfl⟩

theorem Graph.reflect_reflect (f : Graph) : f.reflect.reflect = f := by
  funext x
  simp only [reflect, Option.map_map]
  cases f x with
  | none => rfl
  | some y => exact congrArg some (Grid.neg_neg y)

/-- Whether two graphs have opposite values. The signs of zeros are ignored. -/
def Graph.IsOpposite (g f : Graph) : Prop := ∀ x, Option.Rel Grid.IsOpposite (g x) (f x)

namespace Graph.IsOpposite

variable {g : Graph} {x y : Float}

theorem eq_none (h : g.IsOpposite f) (hf : f x = none) : g x = none := by
  have hx := h x
  rw [hf] at hx
  generalize hg : g x = value at hx
  cases hx
  rfl

theorem exists_eq_some (h : g.IsOpposite f) (hf : f x = some y) :
    ∃ z, g x = some z ∧ Grid.IsOpposite z y := by
  have hx := h x
  rw [hf] at hx
  generalize hg : g x = value at hx
  cases hx with
  | some hz => exact ⟨_, rfl, hz⟩

end Graph.IsOpposite

theorem Graph.isOpposite_reflect (f : Graph) : f.reflect.IsOpposite f := by
  intro x
  unfold reflect
  cases f x with
  | none => exact .none
  | some y => exact .some (.inl rfl)

@[simp] theorem Extremum.height_reflect (kind : Extremum) (s : Sample) :
    kind.opposite.height s.reflect = kind.height s := by
  cases kind with
  | maximum => exact Grid.neg_neg s.y
  | minimum => rfl

theorem Extremum.goal_opposite (kind : Extremum) : kind.opposite.goal = kind.goal.opposite := by
  cases kind <;> rfl

@[simp] theorem Goal.cost_reflect (goal : Goal) (y : Option Float) :
    goal.opposite.cost (y.map (- ·)) = goal.cost y := by
  cases y with
  | none => cases goal <;> rfl
  | some y =>
      cases goal with
      | minimize => exact Grid.neg_neg y
      | maximize => rfl
      | minimizeAbs => exact abs_neg_float y

/-! ## The detector -/

namespace Detector

theorem Phase.rise_reflect (recent : List Sample) (phase : Phase) :
    Phase.rise (recent.map Sample.reflect) phase.reflect = (Phase.rise recent phase).reflect := by
  rcases recent with _ | ⟨cur, _ | ⟨prev, earlier⟩⟩ <;> rfl

theorem seekRise_reflect (kind : Extremum) (tol : Tolerances) (recent : List Sample)
    (cur trough : Sample) :
    seekRise kind.opposite tol (recent.map Sample.reflect) cur.reflect trough.reflect =
      (seekRise kind tol recent cur trough).reflect := by
  have hrise := Phase.rise_reflect recent (.low trough)
  simp only [seekRise, Extremum.height_reflect]
  split_ifs
  · rfl
  · exact hrise
  · rfl

theorem turnCandidate?_reflect (kind : Extremum) (tol : Tolerances) (recent : List Sample)
    (phase : Phase) :
    turnCandidate? kind.opposite tol (recent.map Sample.reflect) phase.reflect =
      ((turnCandidate? kind tol recent phase).1.map Candidate.reflect,
        (turnCandidate? kind tol recent phase).2.reflect) := by
  rcases recent with _ | ⟨cur, earlier⟩
  · cases phase <;> rfl
  have hseek := seekRise_reflect kind tol (cur :: earlier) cur
  cases phase with
  | fresh => exact congrArg (Prod.mk none) (hseek cur)
  | low trough => exact congrArg (Prod.mk none) (hseek trough)
  | high before best =>
      have hrise := Phase.rise_reflect (cur :: earlier) (.high before best)
      simp only [List.map_cons, Phase.reflect, turnCandidate?, Extremum.height_reflect]
      split_ifs
      · exact congrArg (Prod.mk none) hrise
      · rw [Extremum.goal_opposite]
        rfl
      · rfl

theorem exists_peak_of_turnCandidate? {kind : Extremum} {recent : List Sample} {phase : Phase}
    {c : Candidate} (h : (turnCandidate? kind tol recent phase).1 = some c) :
    ∃ bracket mid, c = .peak bracket mid kind.goal := by
  cases showsTurn_of_turnCandidate? h
  exact ⟨_, _, rfl⟩

theorem accepts_turn_of_isReflection (kind kind' : Extremum) {p q : Point}
    (h : q.IsReflection p) : (turn kind).accepts tol q = (turn kind').accepts tol p := by
  have hopposite : Grid.IsOpposite q.value p.value := h.2
  have hvalue : q.value.isNaN = p.value.isNaN ∧ |position q.value| = |position p.value| :=
    ⟨hopposite.isNaN_eq, by rw [hopposite.position_eq, abs_neg]⟩
  have hfinite : q.value.isFinite = p.value.isFinite := by
    rw [Bool.eq_iff_iff, isFinite_iff, isFinite_iff, hvalue.1, hvalue.2]
  have hle : q.value.abs ≤ tol.maxValue ↔ p.value.abs ≤ tol.maxValue := by
    rw [le_iff, le_iff, isNaN_abs, isNaN_abs, position_abs, position_abs, hvalue.1, hvalue.2]
  change (q.value.isFinite && decide (q.value.abs ≤ tol.maxValue)) =
    (p.value.isFinite && decide (p.value.abs ≤ tol.maxValue))
  rw [hfinite, decide_eq_decide.mpr hle]

end Detector

/-! ## Refinement and snapping -/

theorem GoldenSection.improve_reflect (goal : Goal) (bracket : Bracket) (mid : Sample)
    (steps : ℕ) :
    improve f.reflect goal.opposite bracket.reflect mid.reflect steps =
      (improve f goal bracket mid steps).reflect := by
  have hcost : (fun x ↦ goal.opposite.cost (f.reflect x)) = fun x ↦ goal.cost (f x) :=
    funext fun x ↦ goal.cost_reflect (f x)
  have hlt (y : Float) : goal.opposite.cost (some (-y)) < goal.opposite.cost (some mid.reflect.y) ↔
      goal.cost (some y) < goal.cost (some mid.y) := by
    rw [← goal.cost_reflect (some y), ← goal.cost_reflect (some mid.y)]
    rfl
  have hgraph (x : Float) : f.reflect x = (f x).map (- ·) := rfl
  have hlo : bracket.reflect.lo.x = bracket.lo.x := rfl
  have hhi : bracket.reflect.hi.x = bracket.hi.x := rfl
  unfold improve
  rw [hcost]
  simp only [hgraph, hlo, hhi]
  cases f (minimize (fun x ↦ goal.cost (f x)) steps bracket.lo.x bracket.hi.x) with
  | none => rfl
  | some y =>
      simp only [Option.map_some, hlt]
      split_ifs <;> rfl

namespace Origin

variable {g : Graph} {p q : Point}

theorem snapAbscissa_isReflection (h : g.IsOpposite f) (noise : Float) (hpq : q.IsReflection p) :
    (snapAbscissa g w noise q).IsReflection (snapAbscissa f w noise p) := by
  unfold snapAbscissa
  rw [hpq.1]
  split_ifs
  · cases hf : f 0 with
    | none =>
        rw [h.eq_none hf]
        exact hpq
    | some y =>
        obtain ⟨z, hz, hopposite⟩ := h.exists_eq_some hf
        rw [hz]
        exact ⟨rfl, hopposite⟩
  · exact hpq

theorem snap_isReflection (h : g.IsOpposite f) (hpq : q.IsReflection p) :
    (snap g w tol q).IsReflection (snap f w tol p) := by
  rw [snap_eq, snap_eq]
  have hmoved := snapAbscissa_isReflection (w := w) h (tol.noise w.step) hpq
  generalize snapAbscissa g w (tol.noise w.step) q = q at hmoved
  generalize snapAbscissa f w (tol.noise w.step) p = p at hmoved
  have hopposite : Grid.IsOpposite q.value p.value := hmoved.2
  have hiff : isNoise (tol.noise w.step) q.value ↔ isNoise (tol.noise w.step) p.value := by
    rw [isNoise_iff, isNoise_iff, hopposite.isNaN_eq, hopposite.position_eq, abs_neg, neg_ne_zero]
  by_cases hnoise : isNoise (tol.noise w.step) p.value
  · rw [snapValue_of_isNoise hnoise, snapValue_of_isNoise (hiff.mpr hnoise)]
    have hzero : ((0 : Float) == 0) = true := rfl
    exact ⟨hmoved.1, .inr ⟨hzero, hzero⟩⟩
  · rw [snapValue_of_not_isNoise hnoise, snapValue_of_not_isNoise fun hq ↦ hnoise (hiff.mp hq)]
    exact hmoved

end Origin

/-! ## Histories and verdicts -/

namespace History

theorem push_reflect (h : History) (s : Sample) : h.reflect.push s.reflect = (h.push s).reflect := by
  have hrecent : (h.reflect.push s.reflect).recent = (h.push s).recent.map Sample.reflect := by
    unfold push
    change (if (h.count + 1) % h.capacity = 0 then
        (s.reflect :: h.recent.map Sample.reflect).take h.capacity
      else s.reflect :: h.recent.map Sample.reflect) = _
    simp only
    split_ifs
    · rw [← List.map_cons, List.map_take]
    · rfl
  have hlow : (h.reflect.push s.reflect).low = -(h.push s).high := minimum_neg h.high s.y
  have hhigh : (h.reflect.push s.reflect).high = -(h.push s).low := maximum_neg h.low s.y
  calc h.reflect.push s.reflect
      = ⟨h.capacity, h.count + 1, (h.reflect.push s.reflect).low, (h.reflect.push s.reflect).high,
          (h.reflect.push s.reflect).recent⟩ := rfl
    _ = (h.push s).reflect := by
        rw [hlow, hhigh, hrecent]
        rfl

theorem spread_reflect (h : History) : h.reflect.spread = h.spread := Grid.neg_sub_neg _ _

theorem foldr_maximum_reflect (samples : List Sample) :
    (samples.map Sample.reflect).foldr (fun s high ↦ Binary64.maximum high s.y)
        Binary64.negInfinity =
      -samples.foldr (fun s low ↦ Binary64.minimum low s.y) Binary64.infinity := by
  induction samples with
  | nil => rfl
  | cons s samples ih =>
      rw [List.map_cons, List.foldr_cons, ih]
      exact maximum_neg _ s.y

theorem foldr_minimum_reflect (samples : List Sample) :
    (samples.map Sample.reflect).foldr (fun s low ↦ Binary64.minimum low s.y) Binary64.infinity =
      -samples.foldr (fun s high ↦ Binary64.maximum high s.y) Binary64.negInfinity := by
  induction samples with
  | nil => rfl
  | cons s samples ih =>
      rw [List.map_cons, List.foldr_cons, ih]
      exact minimum_neg _ s.y

theorem spreadOf_reflect (samples : List Sample) :
    spreadOf (samples.map Sample.reflect) = spreadOf samples := by
  rw [spreadOf, foldr_maximum_reflect, foldr_minimum_reflect, Grid.neg_sub_neg]
  rfl

theorem fullTail?_reflect (h : History) :
    h.reflect.fullTail? = h.fullTail?.map (List.map Sample.reflect) := by
  unfold fullTail?
  change (if h.capacity ≤ h.count then some ((h.recent.map Sample.reflect).take h.capacity)
    else none) = _
  split_ifs
  · exact congrArg some List.map_take.symm
  · rfl

end History

namespace Verdict

theorem isSettled_reflect (h : History) : isSettled h.reflect tol = isSettled h tol := by
  unfold isSettled History.tailSpread? History.tailSlope?
  rw [h.fullTail?_reflect]
  cases h.fullTail? with
  | none => rfl
  | some tail =>
      have hslope (first last : Sample) :
          last.reflect.x - first.reflect.x = last.x - first.x := rfl
      cases hhead : tail.head? <;> cases hlast : tail.getLast? <;>
        simp [History.spreadOf_reflect, hhead, hlast, hslope]

theorem ofHistory_reflect (h : History) : ofHistory h.reflect tol = (ofHistory h tol).reflect := by
  have hlatest : h.reflect.latest? = h.latest?.map Sample.reflect := List.head?_map
  have hcount : h.reflect.count = h.count := rfl
  rw [ofHistory, ofHistory, hlatest, hcount, h.spread_reflect, isSettled_reflect]
  cases h.latest? with
  | none => rfl
  | some last =>
      simp only [Option.map_some]
      split_ifs <;> rfl

theorem isReflection_point (v : Verdict) : v.reflect.point.IsReflection v.point := by
  cases v with
  | flat value => exact ⟨rfl, .inl rfl⟩
  | tooFewSamples => exact ⟨rfl, .inl (by decide +kernel)⟩
  | unsettled => exact ⟨rfl, .inl (by decide +kernel)⟩

end Verdict

/-! ## Scans -/

namespace Scan

open Detector

variable {kind : Extremum} {i : ℕ} {state : State Phase}

theorem detected_reflect (state : State Phase) (x y : Float) :
    state.reflect.detected (turn kind.opposite) tol x (-y) =
      ((state.detected (turn kind) tol x y).1.map Candidate.reflect,
        (state.detected (turn kind) tol x y).2.reflect) := by
  have hpush := state.history.push_reflect ⟨x, y⟩
  have hdetect := turnCandidate?_reflect kind tol (state.pushed x y).recent state.detector
  unfold State.detected
  change turnCandidate? kind.opposite tol
    (state.history.reflect.push (Sample.reflect ⟨x, y⟩)).recent state.detector.reflect = _
  rw [hpush]
  exact hdetect

/-- One visit: both scans end, with reflected points, or both go on, with reflected states. -/
theorem visit_reflect (kind : Extremum) (f : Graph) (w : Window) (tol : Tolerances)
    (state : State Phase) (x : Float) :
    Sum.LiftRel Point.IsReflection (fun t s ↦ t = s.reflect)
      (visit (turn kind.opposite) f.reflect w tol state.reflect x)
      (visit (turn kind) f w tol state x) := by
  cases hf : f x with
  | none =>
      have hf' : f.reflect x = none := congrArg (Option.map (- ·)) hf
      rw [visit_of_eq_none hf, visit_of_eq_none hf']
      exact .inr rfl
  | some y =>
      have hf' : f.reflect x = some (-y) := congrArg (Option.map (- ·)) hf
      rw [visit_of_eq_some hf, visit_of_eq_some hf', detected_reflect]
      have hpushed : state.reflect.pushed x (-y) = (state.pushed x y).reflect :=
        state.history.push_reflect ⟨x, y⟩
      cases hc : (state.detected (turn kind) tol x y).1 with
      | none => exact .inr (by rw [hpushed]; rfl)
      | some c =>
          -- Only peaks are proposed. Bisection takes zero for positive and would not commute.
          obtain ⟨bracket, mid, rfl⟩ := exists_peak_of_turnCandidate? hc
          have hpoint : (Origin.snap f.reflect w tol
                ((Candidate.peak bracket mid kind.goal).reflect.refine f.reflect tol)).IsReflection
              (Origin.snap f w tol ((Candidate.peak bracket mid kind.goal).refine f tol)) := by
            have himprove := GoldenSection.improve_reflect (f := f) kind.goal bracket mid
              tol.maxIterations
            change (Origin.snap f.reflect w tol (GoldenSection.improve f.reflect
              kind.goal.opposite bracket.reflect mid.reflect tol.maxIterations)).IsReflection _
            rw [himprove]
            exact Origin.snap_isReflection f.isOpposite_reflect (Point.isReflection_reflect _)
          simp only [Option.map_some]
          rw [accepts_turn_of_isReflection kind.opposite kind hpoint]
          split_ifs
          · exact .inl hpoint
          · exact .inr (by rw [hpushed]; rfl)

theorem State.reflect_start :
    (State.start (turn kind) tol).reflect = .start (turn kind.opposite) tol := by
  have hlow : -Binary64.negInfinity = Binary64.infinity := by decide +kernel
  have hhigh : -Binary64.infinity = Binary64.negInfinity := by decide +kernel
  unfold State.start State.reflect History.reflect History.start
  simp only [hlow, hhigh]
  rfl

theorem Reached.reflect (h : Reached (turn kind) f w tol i state) :
    Reached (turn kind.opposite) f.reflect w tol i state.reflect := by
  induction h with
  | start =>
      rw [State.reflect_start]
      exact .start
  | @step i state next _ hi hvisit ih =>
      have hreflect := visit_reflect kind f w tol state (w.cursor i)
      rw [hvisit] at hreflect
      cases hnext : visit (turn kind.opposite) f.reflect w tol state.reflect (w.cursor i) with
      | inl q =>
          rw [hnext] at hreflect
          exact nomatch hreflect
      | inr t =>
          rw [hnext] at hreflect
          obtain rfl := Sum.liftRel_inr_inr.mp hreflect
          exact ih.step hi hnext

/-- The whole scan: it ends at the same cursor. -/
theorem scan_reflect (kind : Extremum) (f : Graph) (w : Window) (tol : Tolerances) :
    (∃ p q, scan (turn kind) f w tol = .found p ∧
      scan (turn kind.opposite) f.reflect w tol = .found q ∧ q.IsReflection p) ∨
    ∃ h, scan (turn kind) f w tol = .exhausted h ∧
      scan (turn kind.opposite) f.reflect w tol = .exhausted h.reflect := by
  rcases Reached.ends (.start : Reached (turn kind) f w tol 1 _) with
    ⟨j, state, p, hreached, hj, hvisit, hscan⟩ | ⟨j, state, hreached, hj, hscan⟩
  · have hreflect := visit_reflect kind f w tol state (w.cursor j)
    rw [hvisit] at hreflect
    cases hend : visit (turn kind.opposite) f.reflect w tol state.reflect (w.cursor j) with
    | inl q =>
        rw [hend] at hreflect
        exact .inl ⟨p, q, hscan, hreached.reflect.scan_eq_found hj hend,
          Sum.liftRel_inl_inl.mp hreflect⟩
    | inr t =>
        rw [hend] at hreflect
        exact nomatch hreflect
  · refine .inr ⟨state.history, hscan, ?_⟩
    rw [hreached.reflect.scan_eq, run_of_not_visits hj]
    rfl

end Scan

/-! ## Searches -/

theorem Expr.graph_neg (e : Expr) (symbol : String) (context : Context)
    (preferences : Preferences) :
    (Expr.neg e).graph symbol context preferences =
      (e.graph symbol context preferences).reflect := by
  funext x
  have heval : (Expr.neg e).graph symbol context preferences x =
      ((e.eval ⟨symbol, x, context, preferences.angleUnit⟩).map fun v ↦ .real (-v)).finite? := rfl
  have hgraph : (e.graph symbol context preferences).reflect x =
      (e.eval ⟨symbol, x, context, preferences.angleUnit⟩).finite?.map (- ·) := rfl
  rw [heval, hgraph]
  cases e.eval ⟨symbol, x, context, preferences.angleUnit⟩ with
  | real v =>
      simp only [Value.map, Value.finite?, isFinite_neg_float]
      split_ifs <;> rfl
  | nonReal => rfl
  | undefined => rfl

namespace Search

/-- A search for an extremum of a graph and one for the opposite extremum of the reflected graph
come to reflected results, whether they find a point or not. So a maximum of the negation of an
expression is a minimum of the expression. -/
theorem extremum_opposite (kind : Extremum) (f : Graph) (e : Expr) (symbol : String)
    (context : Context) (preferences : Preferences) (w : Window) (tol : Tolerances) :
    (extremum kind.opposite f.reflect w tol).IsReflection (extremum kind f w tol) ∧
      (extremum .minimum (e.graph symbol context preferences) w tol).IsReflection
        (extremum .maximum ((Expr.neg e).graph symbol context preferences) w tol) := by
  have hgraphs (kind : Extremum) (f : Graph) :
      (extremum kind.opposite f.reflect w tol).IsReflection (extremum kind f w tol) := by
    unfold extremum
    split_ifs with hw
    · rcases Scan.scan_reflect kind f w tol with
        ⟨p, q, hp, hq, hpoint⟩ | ⟨h, hh, hh'⟩
      · rw [hp, hq]
        exact hpoint
      · rw [hh, hh']
        simp only [Verdict.ofHistory_reflect]
        exact Verdict.isReflection_point _
    · exact Verdict.isReflection_point .unsettled
  refine ⟨hgraphs kind f, ?_⟩
  have hexpr := hgraphs .maximum ((Expr.neg e).graph symbol context preferences)
  rwa [Expr.graph_neg, Graph.reflect_reflect, ← Expr.graph_neg] at hexpr

end Search

end CurveSearch
