import CurveSearch.Proofs.Origin
import CurveSearch.Proofs.Peaks
import CurveSearch.Proofs.VisibleCrossing

/-!
# The law of extrema

Behind every extremum that is found stands a peak of the samples. Refinement stays between the
samples around the peak and never comes down from it, so the refined point is a point of the graph
as high as the peak. Snapping comes last and knows nothing of peaks: a value within a part of the
step of zero becomes zero, however large the step is, and a point near the origin is moved there.
-/

namespace CurveSearch

open Grid Detector

variable {kind : Extremum} {f : Graph} {w : Window} {tol : Tolerances} {eps noise : Float}
  {p q : Point}

/-! ## Peaks and the points that they explain -/

/-- A sample that is the highest of its neighborhood, with the one right before it and the one that
has fallen from it. -/
structure Peak where
  before : Sample
  crest : Sample
  last : Sample

def Peak.ofStream (s : ℕ → Sample) (j k : ℕ) : Peak := ⟨s j, s (j + 1), s k⟩

/-- What a point is relied on for that is reported for a peak: it lies between the samples around the
peak, the graph has its value there up to the tolerance, and it has not fallen from the peak. -/
structure Peak.Explains (P : Peak) (kind : Extremum) (eps : Float) (f : Graph) (p : Point) :
    Prop where
  between : Between P.before.x P.last.x p.abscissa
  value : ∃ y, f p.abscissa = some y ∧ (y - p.value).abs ≤ eps
  not_fallen : ¬ kind.opposite.Rises eps P.crest ⟨p.abscissa, p.value⟩

/-- Whether a scan ends at the cursor with the given index, with the given point. -/
def Scan.EndsWith {σ : Type} (detector : Detector σ) (f : Graph) (w : Window) (tol : Tolerances)
    (n : ℕ) (p : Point) : Prop :=
  ∃ state, Reached detector f w tol n state ∧ w.Visits n ∧
    visit detector f w tol state (w.cursor n) = .inl p

namespace Scan

variable {σ : Type} {detector : Detector σ} {i m n : ℕ} {state : State σ}

theorem EndsWith.scan_eq (h : EndsWith detector f w tol n p) :
    scan detector f w tol = .found p := by
  obtain ⟨state, hreached, hn, hvisit⟩ := h
  exact hreached.scan_eq_found hn hvisit

theorem Reached.endsWith {c : Candidate} {y : Float} (h : Reached detector f w tol n state)
    (hn : w.Visits n) (hf : f (w.cursor n) = some y)
    (hc : (state.detected detector tol (w.cursor n) y).1 = some c)
    (haccept : detector.accepts tol (Origin.snap f w tol (c.refine f tol))) :
    EndsWith detector f w tol n (Origin.snap f w tol (c.refine f tol)) := by
  refine ⟨state, h, hn, ?_⟩
  rw [visit_of_eq_some hf, hc]
  exact if_pos haccept

theorem Reached.le_of_endsWith (h : Reached detector f w tol i state)
    (hend : EndsWith detector f w tol n p) : i ≤ n := by
  obtain ⟨last, hlast, -, hfound⟩ := hend
  induction h with
  | start => exact hlast.one_le
  | @step i state next hreached _ hvisit ih =>
      refine Nat.lt_of_le_of_ne ih ?_
      rintro rfl
      rw [hreached.eq_ofSamples, ← hlast.eq_ofSamples] at hvisit
      exact nomatch hfound.symm.trans hvisit

theorem EndsWith.index_unique (hm : EndsWith detector f w tol m q)
    (hn : EndsWith detector f w tol n p) : m = n := by
  have ⟨_, hreached, _⟩ := hm
  have ⟨_, hreached', _⟩ := hn
  exact Nat.le_antisymm (hreached.le_of_endsWith hn) (hreached'.le_of_endsWith hm)

end Scan

/-! ## The order of the samples -/

namespace Window

theorem stream_samples_le (hw : w.isValid) {n i j : ℕ} (hn : n < 2 ^ 64) (hij : i < j)
    (hj : j < (w.samples f n).length) :
    (stream (w.samples f n) i).x ≤ (stream (w.samples f n) j).x := by
  rw [stream_eq_getElem hj, stream_eq_getElem (hij.trans hj)]
  exact List.pairwise_iff_getElem.mp (pairwise_samples hw hn) i j (hij.trans hj) hj hij

end Window

/-! ## Refined peaks -/

theorem Extremum.cost_lt_iff (kind : Extremum) (x : Float) {y : Float} {s : Sample} :
    kind.goal.cost (some y) < kind.goal.cost (some s.y) ↔ kind.height s < kind.height ⟨x, y⟩ := by
  cases kind with
  | maximum => exact Grid.neg_lt_neg_iff
  | minimum => exact Grid.neg_lt_neg_iff.symm

theorem GoldenSection.improve_height {bracket : Bracket} {mid : Sample} (hmid : mid.IsOf f)
    (hfin : mid.y.isFinite) (steps : ℕ) (hq : q = improve f kind.goal bracket mid steps) :
    f q.abscissa = some q.value ∧ kind.height mid ≤ kind.height ⟨q.abscissa, q.value⟩ := by
  rcases improve_cases f kind.goal bracket mid steps with heq | ⟨x, y, -, hy, hbetter, heq⟩
  · rw [hq, heq]
    exact ⟨hmid, Grid.le_refl (isNaN_of_isFinite (kind.isFinite_height hfin))⟩
  · rw [hq, heq]
    exact ⟨hy, Grid.le_of_lt ((kind.cost_lt_iff x).mp hbetter)⟩

theorem Candidate.refine_peak_between {before mid last : Sample} {goal : Goal}
    (hleft : before.x ≤ mid.x) (hright : mid.x ≤ last.x) (hlo : before.x.isFinite)
    (hhi : last.x.isFinite)
    (hfin : ((Candidate.peak ⟨before, last⟩ mid goal).refine f tol).abscissa.isFinite) :
    Between before.x last.x ((Candidate.peak ⟨before, last⟩ mid goal).refine f tol).abscissa := by
  refine refine_between hlo hhi (fun s hs ↦ ?_) hfin
  simp only [samples, List.mem_cons, List.not_mem_nil, or_false] at hs
  rcases hs with rfl | rfl | rfl
  · exact ⟨Grid.le_refl (isNaN_of_isFinite hlo), Grid.le_trans hleft hright⟩
  · exact ⟨hleft, hright⟩
  · exact ⟨Grid.le_trans hleft hright, Grid.le_refl (isNaN_of_isFinite hhi)⟩

theorem Extremum.not_fallen_of_le {a b : Sample} (ha : a.y.isFinite) (hb : b.y.isFinite)
    (heps : 0 ≤ eps) (hle : kind.height a ≤ kind.height b) : ¬ kind.opposite.Rises eps a b :=
  fun hfall ↦ (not_height_lt_iff hb ha).mpr hle (hfall.lt_of_opposite ha heps)

theorem Peak.explains_of_le {P : Peak} (hf : f.FiniteValued) (heps : 0 ≤ eps)
    (hcrest : P.crest.y.isFinite) (hbetween : Between P.before.x P.last.x q.abscissa)
    (hq : f q.abscissa = some q.value)
    (hle : kind.height P.crest ≤ kind.height ⟨q.abscissa, q.value⟩) :
    P.Explains kind eps f q where
  between := hbetween
  value := by
    have hfin := hf _ _ hq
    have hzero := isNearest_sub hfin hfin
    refine ⟨q.value, hq, le_iff.mpr ⟨?_, (le_iff.mp heps).2.1, ?_⟩⟩
    · rw [isNaN_abs]
      exact hzero.isNaN_eq
    · rw [position_abs, hzero.position_eq, sub_self, nearest_zero, abs_zero]
      exact (le_iff.mp heps).2.2
  not_fallen := Extremum.not_fallen_of_le hcrest (hf _ _ hq) heps hle

/-! ## Snapped peaks -/

/-- Whether a point is moved to the origin. -/
structure Origin.Moves (f : Graph) (w : Window) (tol : Tolerances) (p : Point) : Prop where
  inWindow : inWindow w
  isNoise : isNoise (tol.noise w.step) p.abscissa
  exists_value : ∃ y, f 0 = some y

/-- Whether a value is snapped to zero that is beyond the tolerance. -/
structure Origin.Flattens (noise eps v : Float) : Prop where
  isNoise : isNoise noise v
  not_le : ¬ v.abs ≤ eps

namespace Origin

theorem snapAbscissa_of_not_moves (h : ¬ Moves f w tol q) :
    snapAbscissa f w (tol.noise w.step) q = q := by
  rcases snapAbscissa_cases f w (tol.noise w.step) q with heq | ⟨y, hin, hnoise, hy, -⟩
  · exact heq
  · exact absurd ⟨hin, hnoise, y, hy⟩ h

theorem isFinite_of_isNoise {v : Float} (h : isNoise noise v) : v.isFinite := by
  obtain ⟨hnan, -, -, hlt⟩ := isNoise_iff.mp h
  exact isFinite_iff.mpr ⟨hnan, hlt.trans_le (abs_le.mp (abs_position_le noise)).2⟩

theorem isFinite_of_snap (h : (snap f w tol q).abscissa.isFinite) : q.abscissa.isFinite := by
  by_cases hmoves : Moves f w tol q
  · exact isFinite_of_isNoise hmoves.isNoise
  · rwa [abscissa_snap, snapAbscissa_of_not_moves hmoves] at h

/-- Over a snapped point the graph has its value, or a value that was snapped to zero. -/
theorem value_eq_or_snapped (hq : f q.abscissa = some q.value) :
    ∃ y, f (snap f w tol q).abscissa = some y ∧
      ((snap f w tol q).value = y ∨
        (snap f w tol q).value = 0 ∧ y.abs < tol.noise w.step) := by
  have hmoved : ∃ r, snapAbscissa f w (tol.noise w.step) q = r ∧ f r.abscissa = some r.value := by
    rcases snapAbscissa_cases f w (tol.noise w.step) q with heq | ⟨y, -, -, hy, heq⟩
    · exact ⟨q, heq, hq⟩
    · exact ⟨⟨0, y⟩, heq, hy⟩
  obtain ⟨r, heq, hr⟩ := hmoved
  rw [snap_eq, heq]
  refine ⟨r.value, ?_, ?_⟩
  · rw [abscissa_snapValue]
    exact hr
  · by_cases hnoise : isNoise (tol.noise w.step) r.value
    · rw [snapValue_of_isNoise hnoise]
      exact .inr ⟨rfl, abs_lt_of_isNoise hnoise⟩
    · rw [snapValue_of_not_isNoise hnoise]
      exact .inl rfl

end Origin

theorem Extremum.not_fallen_to_zero {a b : Sample} (ha : a.y.isFinite) (heps : 0 ≤ eps)
    (hle : kind.height a ≤ kind.height b) (hsmall : b.y.abs ≤ eps) (x : Float) :
    ¬ kind.opposite.Rises eps a ⟨x, 0⟩ := by
  rw [rises_iff ha heps]
  have hnonneg : |position b.y| ≤ position eps := by
    have hpos := (le_iff.mp hsmall).2.2
    rwa [position_abs] at hpos
  have hposition : position (kind.height a) ≤ |position b.y| := by
    refine (le_iff.mp hle).2.2.trans ?_
    cases kind with
    | maximum => exact le_abs_self _
    | minimum =>
        rw [height, position_neg]
        exact neg_le_abs _
  have hzero : position (kind.opposite.height ⟨x, 0⟩) = 0 := by
    cases kind with
    | maximum => exact (position_neg 0).trans neg_zero
    | minimum => exact position_zero
  apply not_add_lt (kind.opposite.isFinite_height ha) heps
  rw [hzero, height_opposite, position_neg]
  linarith

/-- Snapping the value leaves a point explained unless it flattens it. -/
theorem Peak.explains_snapValue {P : Peak} (heps : 0 ≤ eps) (hcrest : P.crest.y.isFinite)
    (hP : P.Explains kind eps f q)
    (hq : f q.abscissa = some q.value)
    (hle : kind.height P.crest ≤ kind.height ⟨q.abscissa, q.value⟩)
    (hflat : ¬ Origin.Flattens noise eps q.value) :
    P.Explains kind eps f (Origin.snapValue noise q) := by
  by_cases hnoise : Origin.isNoise noise q.value
  · have hsmall : q.value.abs ≤ eps := by
      by_contra hlarge
      exact hflat ⟨hnoise, hlarge⟩
    rw [Origin.snapValue_of_isNoise hnoise]
    refine ⟨hP.between, ⟨q.value, hq, ?_⟩, ?_⟩
    · rw [Grid.sub_zero]
      exact hsmall
    · exact Extremum.not_fallen_to_zero hcrest heps hle hsmall q.abscissa
  · rw [Origin.snapValue_of_not_isNoise hnoise]
    exact hP

/-! ## The law -/

/-- A peak of the samples before the cursor with index `n`, and a point of the graph that it explains
and that is as high as its crest. -/
structure RefinedPeak (kind : Extremum) (f : Graph) (w : Window) (eps : Float) (n j k : ℕ)
    (q : Point) : Prop where
  lt_length : k < (w.samples f n).length
  peakAt : PeakAt kind eps (stream (w.samples f n)) j k
  explains : (Peak.ofStream (stream (w.samples f n)) j k).Explains kind eps f q
  value_eq : f q.abscissa = some q.value
  height_le : kind.height (stream (w.samples f n) (j + 1)) ≤ kind.height ⟨q.abscissa, q.value⟩

theorem Window.takenBefore_stream {n i : ℕ} (hi : i < (w.samples f n).length) :
    Scan.TakenBefore f w (n + 1) (stream (w.samples f n) i) := by
  rw [stream_eq_getElem hi]
  exact mem_samples_iff.mp (List.getElem_mem hi)

namespace Scan

variable {n : ℕ}

/-- A scan for an extremum that ends with a point ends with a peak of its samples. -/
theorem EndsWith.exists_peakAt (h : EndsWith (turn kind) f w tol n p) (hf : f.FiniteValued)
    (heps : 0 ≤ tol.eps) :
    ∃ j k, k < (w.samples f n).length ∧ PeakAt kind tol.eps (stream (w.samples f n)) j k ∧
      p = Origin.snap f w tol ((Candidate.peak
        ⟨stream (w.samples f n) j, stream (w.samples f n) k⟩ (stream (w.samples f n) (j + 1))
        kind.goal).refine f tol) := by
  obtain ⟨state, hreached, -, hvisit⟩ := h
  obtain ⟨n, rfl⟩ := Nat.exists_eq_add_one.mpr hreached.one_le
  rcases visit_cases (turn kind) f w tol state (w.cursor (n + 1)) with
    ⟨-, heq⟩ | ⟨y, hy, ⟨c, hc, -, heq⟩ | heq⟩
  · exact nomatch heq.symm.trans hvisit
  · have hlength : (w.samples f n).length < (w.samples f (n + 1)).length := by
      rw [Window.samples_succ_of_some hy, List.length_append, List.length_singleton]
      exact Nat.lt_succ_self _
    have hfin := forall_stream (hf.isFinite_of_mem_samples (w := w) (n := n + 1))
    have hanswer := (hreached.detected_eq_answer hy List.prefix_rfl).2
    obtain ⟨j, hpeak, rfl⟩ := exists_peakAt_of_answer heps
      (fun i hi ↦ hfin i (by omega)) (hanswer.symm.trans hc)
    exact ⟨j, _, hlength, hpeak, (Sum.inl.inj (heq.symm.trans hvisit)).symm⟩
  · exact nomatch heq.symm.trans hvisit

/-- If the end point is finite, the peak explains the point before it was snapped. -/
theorem EndsWith.exists_refinedPeak (h : EndsWith (turn kind) f w tol n p) (hw : w.isValid)
    (hf : f.FiniteValued) (heps : 0 ≤ tol.eps) (hfin : p.abscissa.isFinite) :
    ∃ j k q, RefinedPeak kind f w tol.eps n j k q ∧ p = Origin.snap f w tol q := by
  obtain ⟨j, k, hk, hpeak, rfl⟩ := h.exists_peakAt hf heps
  obtain ⟨-, -, hn, -⟩ := h
  have hlt := hpeak.lt
  have hbefore := Window.takenBefore_stream ((Nat.lt_of_succ_lt hlt).trans hk)
  have hcrest := Window.takenBefore_stream (hlt.trans hk)
  have hlast := Window.takenBefore_stream hk
  obtain ⟨-, -, -, -, hof⟩ := hcrest
  obtain ⟨hvalue, hheight⟩ := GoldenSection.improve_height hof (hf _ _ hof) tol.maxIterations rfl
  have hbetween := Candidate.refine_peak_between
    (Window.stream_samples_le hw hn.1 (Nat.lt_succ_self j) (hlt.trans hk))
    (Window.stream_samples_le hw hn.1 hlt hk) (hbefore.isFinite hw hn) (hlast.isFinite hw hn)
    (Origin.isFinite_of_snap hfin)
  exact ⟨j, k, _, ⟨hk, hpeak, Peak.explains_of_le hf heps (hf _ _ hof) hbetween hvalue hheight,
    hvalue, hheight⟩, rfl⟩

end Scan

namespace Search

/-- Behind every extremum that is found stands a peak of the samples, and a refined point that the
peak explains. The extremum is that point after snapping: the graph has its value there, or one that
was snapped to zero, and unless the point is moved to the origin it stays where it is, and the peak
explains it unless its value is beyond the tolerance and was snapped all the same. -/
theorem exists_peak_of_extremum (kind : Extremum) (f : Graph) (w : Window) (tol : Tolerances)
    (hfault : Configuration.fault? tol = none) (hf : f.FiniteValued)
    (hfound : (extremum kind f w tol).isFound) :
    ∃ n j k q, Scan.EndsWith (turn kind) f w tol n (extremum kind f w tol) ∧
      RefinedPeak kind f w tol.eps n j k q ∧
      extremum kind f w tol = Origin.snap f w tol q ∧
      (∃ y, f (extremum kind f w tol).abscissa = some y ∧
        ((extremum kind f w tol).value = y ∨
          (extremum kind f w tol).value = 0 ∧ y.abs < tol.noise w.step)) ∧
      (¬ Origin.Moves f w tol q → (extremum kind f w tol).abscissa = q.abscissa ∧
        (¬ Origin.Flattens (tol.noise w.step) tol.eps q.value →
          (Peak.ofStream (stream (w.samples f n)) j k).Explains kind tol.eps f
            (extremum kind f w tol))) := by
  obtain ⟨⟨hepsok, -⟩, -⟩ := Configuration.fault?_eq_none.mp hfault
  have heps := Configuration.le_of_isNonnegative hepsok
  obtain ⟨hw, hscan⟩ := extremum_found hfound
  obtain ⟨n, state, hreached, hn, hvisit⟩ := Scan.scan_found hscan
  have hends : Scan.EndsWith (turn kind) f w tol n (extremum kind f w tol) :=
    ⟨state, hreached, hn, hvisit⟩
  obtain ⟨j, k, q, hrefined, hsnap⟩ := hends.exists_refinedPeak hw hf heps hfound
  refine ⟨n, j, k, q, hends, hrefined, hsnap, ?_, fun hstays ↦ ?_⟩
  · rw [hsnap]
    exact Origin.value_eq_or_snapped hrefined.value_eq
  · have heq : extremum kind f w tol = Origin.snapValue (tol.noise w.step) q := by
      rw [hsnap, Origin.snap_eq, Origin.snapAbscissa_of_not_moves hstays]
    rw [heq]
    refine ⟨Origin.abscissa_snapValue _ q, fun hflat ↦ ?_⟩
    obtain ⟨-, -, -, -, hcrest⟩ := Window.takenBefore_stream
      (hrefined.peakAt.lt.trans hrefined.lt_length)
    exact Peak.explains_snapValue heps (hf _ _ hcrest) hrefined.explains hrefined.value_eq
      hrefined.height_le hflat

end Search

/-! ## Extrema that no peak explains -/

def Search.IsExplained (kind : Extremum) (f : Graph) (w : Window) (tol : Tolerances) : Prop :=
  ∃ n j k, Scan.EndsWith (turn kind) f w tol n (extremum kind f w tol) ∧
    k < (w.samples f n).length ∧ PeakAt kind tol.eps (stream (w.samples f n)) j k ∧
    (Peak.ofStream (stream (w.samples f n)) j k).Explains kind tol.eps f (extremum kind f w tol)

/-- A tent: `height - slope * abs(a - tip)`. -/
def Expr.tent (height slope tip : Float) : Expr :=
  .binary .sub (.number height)
    (.binary .mul (.number slope) (.call .abs (.binary .sub (.symbol "a") (.number tip))))

section Tents

variable {height slope tip x y : Float}

theorem Expr.le_of_tent (hslope : 0 ≤ slope) (hy : (tent height slope tip).plot x = some y) :
    y ≤ height := by
  obtain ⟨h, drop, hheight, hdrop, hsub⟩ :=
    Value.map₂_eq_real.mp (Value.eq_real_of_finite? hy)
  obtain ⟨s, way, hs, hway, hmul⟩ := Value.map₂_eq_real.mp hdrop
  obtain ⟨v, -, habs⟩ := Value.map_eq_real.mp hway
  obtain ⟨hsfin, rfl⟩ := Value.eq_of_ofFloat_eq_real hs
  obtain ⟨-, rfl⟩ := Value.eq_of_ofFloat_eq_real hheight
  obtain ⟨hvfin, rfl⟩ := Value.eq_of_ofFloat_eq_real habs
  obtain ⟨-, rfl⟩ := Value.eq_of_ofFloat_eq_real hmul
  obtain ⟨hfin, rfl⟩ := Value.eq_of_ofFloat_eq_real hsub
  refine Grid.sub_le_self (mul_nonneg_of_finite hsfin hvfin ?_ ?_) hfin
  · have hpos := (le_iff.mp hslope).2.2
    rwa [position_zero] at hpos
  · rw [position_abs]
    exact abs_nonneg _

theorem GoldenSection.improve_tent (hslope : 0 ≤ slope) (bracket : Bracket) (steps : ℕ) :
    improve (Expr.tent height slope tip).plot .maximize bracket ⟨tip, height⟩ steps =
      ⟨tip, height⟩ := by
  rcases improve_cases (Expr.tent height slope tip).plot .maximize bracket ⟨tip, height⟩ steps with
    heq | ⟨x, y, -, hy, hbetter, -⟩
  · exact heq
  · -- An improvement would be above the tip.
    have hlt := Grid.lt_of_lt_of_le (Grid.neg_lt_neg_iff.mp hbetter) (Expr.le_of_tent hslope hy)
    exact absurd hlt fun h ↦ Grid.lt_asymm h h

/-- A scan for a maximum that comes over the tip of a tent with its second cursor ends with the tip,
snapped. -/
theorem Scan.endsWith_tent (a b : Float) (hslope : 0 ≤ slope)
    (hvisits : ∀ i, 1 ≤ i → i ≤ 3 → w.Visits i) (htip : w.cursor 2 = tip)
    (hfirst : (Expr.tent height slope tip).plot (w.cursor 1) = some a)
    (hsecond : (Expr.tent height slope tip).plot (w.cursor 2) = some height)
    (hthird : (Expr.tent height slope tip).plot (w.cursor 3) = some b)
    (hrise : ((State.ofSamples (turn .maximum) {} [⟨w.cursor 1, a⟩]).detected (turn .maximum) {}
      (w.cursor 2) height).1 = none)
    (hfall : ((State.ofSamples (turn .maximum) {} [⟨w.cursor 1, a⟩, ⟨w.cursor 2, height⟩]).detected
      (turn .maximum) {} (w.cursor 3) b).1 =
        some (.peak ⟨⟨w.cursor 1, a⟩, ⟨w.cursor 3, b⟩⟩ ⟨w.cursor 2, height⟩ .maximize))
    (hsnap : Origin.snap (Expr.tent height slope tip).plot w {} ⟨tip, height⟩ = p)
    (haccept : (turn .maximum).accepts {} p) :
    EndsWith (turn .maximum) (Expr.tent height slope tip).plot w {} 3 p := by
  have hstart : Reached (turn .maximum) (Expr.tent height slope tip).plot w {} 1
      (.start (turn .maximum) {}) := .start
  have htwo := hstart.step_of_silent (hvisits 1 le_rfl (by omega)) hfirst rfl
  have hthree := htwo.step_of_silent (hvisits 2 (by omega) (by omega)) hsecond hrise
  have hrefined : (Candidate.peak ⟨⟨w.cursor 1, a⟩, ⟨w.cursor 3, b⟩⟩ ⟨w.cursor 2, height⟩
      .maximize).refine (Expr.tent height slope tip).plot {} = ⟨tip, height⟩ := by
    rw [htip]
    exact GoldenSection.improve_tent hslope _ _
  have hend := hthree.endsWith (hvisits 3 (by omega) le_rfl) hthird hfall
    (by rwa [hrefined, hsnap])
  rwa [hrefined, hsnap] at hend

end Tents

def Window.byTens : Window := ⟨0, 10, 50⟩

def Window.acrossOrigin : Window := ⟨-1.99999904632568359375, 1, 5⟩

namespace Scan

theorem visits_three : ∀ i, 1 ≤ i → i ≤ 3 →
    Window.byTens.Visits i ∧ Window.acrossOrigin.Visits i := by
  intro i hone hthree
  interval_cases i <;>
    exact ⟨⟨by norm_num, by decide +kernel⟩, ⟨by norm_num, by decide +kernel⟩⟩

theorem endsWith_high_tent :
    EndsWith (turn .maximum) (Expr.tent 1 0.1 20).plot .byTens {} 3 ⟨20, 1⟩ :=
  endsWith_tent 0 0 (by decide +kernel) (fun i hone hthree ↦ (visits_three i hone hthree).1)
    (by decide +kernel) (by decide +kernel) (by decide +kernel) (by decide +kernel)
    (by decide +kernel) (by decide +kernel) (by decide +kernel) (by decide +kernel)

theorem endsWith_low_tent :
    EndsWith (turn .maximum) (Expr.tent 0.00005 0.00001 20).plot .byTens {} 3 ⟨20, 0⟩ :=
  endsWith_tent (-0.00005) (-0.00005) (by decide +kernel)
    (fun i hone hthree ↦ (visits_three i hone hthree).1)
    (by decide +kernel) (by decide +kernel) (by decide +kernel) (by decide +kernel)
    (by decide +kernel) (by decide +kernel) (by decide +kernel) (by decide +kernel)

theorem endsWith_steep_tent :
    EndsWith (turn .maximum) (Expr.tent 1 1000 0.00000095367431640625).plot .acrossOrigin {} 3
      ⟨0, 0.99904632568359375⟩ :=
  endsWith_tent (-999) (-999) (by decide +kernel)
    (fun i hone hthree ↦ (visits_three i hone hthree).2)
    (by decide +kernel) (by decide +kernel) (by decide +kernel) (by decide +kernel)
    (by decide +kernel) (by decide +kernel) (by decide +kernel) (by decide +kernel)

end Scan

namespace Search

theorem extremum_eq_of_endsWith {n : ℕ} (hw : w.isValid)
    (h : Scan.EndsWith (turn kind) f w tol n p) : extremum kind f w tol = p := by
  unfold extremum
  rw [if_pos hw, h.scan_eq]

/-- The tip of a high tent stands on a peak of the samples, which explains it. -/
theorem exists_peak_of_extremum_high_tent :
    (Configuration.fault? {} = none ∧ (Expr.tent 1 0.1 20).plot.FiniteValued ∧
      (extremum .maximum (Expr.tent 1 0.1 20).plot .byTens {}).isFound) ∧
    extremum .maximum (Expr.tent 1 0.1 20).plot .byTens {} = ⟨20, 1⟩ ∧
      IsExplained .maximum (Expr.tent 1 0.1 20).plot .byTens {} := by
  have hfault : Configuration.fault? {} = none :=
    Configuration.fault?_eq_none.mpr (by decide +kernel)
  have hfinite : (Expr.tent 1 0.1 20).plot.FiniteValued := Expr.finiteValued_graph _ _ _ _
  have heq : extremum .maximum (Expr.tent 1 0.1 20).plot .byTens {} = ⟨20, 1⟩ :=
    extremum_eq_of_endsWith (by decide +kernel) Scan.endsWith_high_tent
  have hfound : (extremum .maximum (Expr.tent 1 0.1 20).plot .byTens {}).isFound := by
    rw [heq]
    decide +kernel
  refine ⟨⟨hfault, hfinite, hfound⟩, heq, ?_⟩
  obtain ⟨n, j, k, q, hend, hrefined, -, -, hstays⟩ :=
    exists_peak_of_extremum .maximum (Expr.tent 1 0.1 20).plot .byTens {} hfault hfinite hfound
  obtain ⟨habscissa, hexplains⟩ :=
    hstays fun hmoves ↦ absurd hmoves.inWindow (by decide +kernel)
  refine ⟨n, j, k, hend, hrefined.lt_length, hrefined.peakAt, hexplains fun hflat ↦ ?_⟩
  have hvalue := hrefined.value_eq
  rw [← habscissa, heq] at hvalue
  have hone : (Expr.tent 1 0.1 20).plot 20 = some 1 := by decide +kernel
  rw [← Option.some.inj (hone.symm.trans hvalue)] at hflat
  exact absurd hflat.isNoise (by decide +kernel)

/-- No peak explains the value zero that is found over the tip of the low tent, and none explains the
point over the origin that is found for the tip of the steep one. -/
theorem not_isExplained_low_tent_and_steep_tent :
    (Configuration.fault? {} = none ∧ Window.byTens.isValid ∧ Window.acrossOrigin.isValid) ∧
    ((Expr.tent 0.00005 0.00001 20).plot.FiniteValued ∧
      (extremum .maximum (Expr.tent 0.00005 0.00001 20).plot .byTens {}).isFound ∧
      ¬ IsExplained .maximum (Expr.tent 0.00005 0.00001 20).plot .byTens {}) ∧
    ((Expr.tent 1 1000 0.00000095367431640625).plot.FiniteValued ∧
      (extremum .maximum (Expr.tent 1 1000 0.00000095367431640625).plot .acrossOrigin {}).isFound ∧
      ¬ IsExplained .maximum (Expr.tent 1 1000 0.00000095367431640625).plot .acrossOrigin {}) := by
  have hlow : extremum .maximum (Expr.tent 0.00005 0.00001 20).plot .byTens {} = ⟨20, 0⟩ :=
    extremum_eq_of_endsWith (by decide +kernel) Scan.endsWith_low_tent
  have hsteep : extremum .maximum (Expr.tent 1 1000 0.00000095367431640625).plot .acrossOrigin {} =
      ⟨0, 0.99904632568359375⟩ :=
    extremum_eq_of_endsWith (by decide +kernel) Scan.endsWith_steep_tent
  refine ⟨⟨Configuration.fault?_eq_none.mpr (by decide +kernel), by decide +kernel,
    by decide +kernel⟩, ⟨Expr.finiteValued_graph _ _ _ _, ?_, ?_⟩,
    ⟨Expr.finiteValued_graph _ _ _ _, ?_, ?_⟩⟩
  · rw [hlow]
    decide +kernel
  · rintro ⟨n, j, k, -, -, -, hexplains⟩
    rw [hlow] at hexplains
    obtain ⟨y, hy, hle⟩ := hexplains.value
    have htip : (Expr.tent 0.00005 0.00001 20).plot 20 = some 0.00005 := by decide +kernel
    rw [← Option.some.inj (htip.symm.trans hy)] at hle
    exact absurd hle (by decide +kernel)
  · rw [hsteep]
    decide +kernel
  · rintro ⟨n, j, k, hend, hk, hpeak, hexplains⟩
    rw [hsteep] at hend hexplains
    obtain rfl := hend.index_unique Scan.endsWith_steep_tent
    have hsamples : Window.acrossOrigin.samples
        (Expr.tent 1 1000 0.00000095367431640625).plot 3 =
        [⟨Window.acrossOrigin.cursor 1, -999⟩, ⟨Window.acrossOrigin.cursor 2, 1⟩,
          ⟨Window.acrossOrigin.cursor 3, -999⟩] := by
      decide +kernel
    rw [hsamples] at hk hpeak hexplains
    obtain rfl : j = 0 := by
      have hlt := hpeak.lt
      simp only [List.length_cons, List.length_nil] at hk
      omega
    -- The crest is the tip, and the point over the origin has fallen from it.
    have hfallen : Extremum.maximum.opposite.Rises ({} : Tolerances).eps
        ⟨Window.acrossOrigin.cursor 2, 1⟩ ⟨0, 0.99904632568359375⟩ := by decide +kernel
    exact hexplains.not_fallen hfallen

end Search

end CurveSearch
