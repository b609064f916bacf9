import CurveSearch.Proofs.Expr.Evaluation
import CurveSearch.Proofs.RootValue

/-!
# What searches return

A search over expressions returns a finite point, or a point that says in what way there is none. A
midpoint can overflow, so the abscissa of a refined point may be infinite. Such a point has no value
unless the graph is constant, and a constant graph shows no change of sign to bisect and no sample
that is better than another one.
-/

namespace CurveSearch

open Grid

variable {f g : Graph} {w : Window} {tol : Tolerances} {p q : Point}

/-! ## Candidates on constant graphs -/

def Candidate.Crosses : Candidate → Prop
  | .signChange bracket => bracket.lo.isNegative ≠ bracket.hi.isNegative
  | _ => True

theorem Detector.crosses_of_rootCandidate? {recent : List Sample} {c : Candidate}
    (h : rootCandidate? tol recent = some c) : c.Crosses := by
  cases showsRoot_of_rootCandidate? h with
  | exact => trivial
  | signChange _ hsign => exact hsign
  | touch => trivial

theorem Detector.crosses_of_turnCandidate? {kind : Extremum} {recent : List Sample} {phase : Phase}
    {c : Candidate} (h : (turnCandidate? kind tol recent phase).1 = some c) : c.Crosses := by
  cases showsTurn_of_turnCandidate? h
  trivial

theorem GoldenSection.improve_const (y : Float) (goal : Goal) (bracket : Bracket) {mid : Sample}
    (hmid : mid.IsOf (Graph.const y)) (steps : ℕ) :
    improve (Graph.const y) goal bracket mid steps = ⟨mid.x, mid.y⟩ := by
  have hy : y = mid.y := Option.some.inj hmid
  unfold improve
  simp only [Graph.const_eq]
  rw [if_neg]
  rw [hy]
  intro hlt
  exact Grid.lt_asymm hlt hlt

theorem Candidate.isFinite_refine_const {c : Candidate} {y : Float}
    (hsamples : ∀ s ∈ c.samples, s.x.isFinite ∧ s.IsOf (Graph.const y)) (hcross : c.Crosses) :
    (c.refine (Graph.const y) tol).abscissa.isFinite := by
  cases c with
  | exact s => exact (hsamples s (by simp [samples])).1
  | signChange bracket =>
      -- Both ends have the one value of the graph.
      have hlo : y = bracket.lo.y := Option.some.inj (hsamples bracket.lo (by simp [samples])).2
      have hhi : y = bracket.hi.y := Option.some.inj (hsamples bracket.hi (by simp [samples])).2
      refine absurd ?_ hcross
      rw [Sample.isNegative, Sample.isNegative, ← hlo, ← hhi]
  | peak bracket mid goal =>
      obtain ⟨hx, hmid⟩ := hsamples mid (by simp [samples])
      rw [refine, GoldenSection.improve_const y goal bracket hmid]
      exact hx

/-! ## Points that end a scan -/

theorem Origin.exists_value_of_snap (hq : q.IsOn f) (h : (snap f w tol q).value.isNaN = false) :
    ∃ y, f (snap f w tol q).abscissa = some y := by
  have hon := snapAbscissa_isOn w (tol.noise w.step) hq
  rw [snap_eq] at h
  rw [abscissa_snap]
  by_cases hnoise : isNoise (tol.noise w.step) (snapAbscissa f w (tol.noise w.step) q).value
  · exact ⟨_, hon.eq_some (isNoise_iff.mp hnoise).1⟩
  · rw [snapValue_of_not_isNoise hnoise] at h
    exact ⟨_, hon.eq_some h⟩

theorem Candidate.isFinite_snap_refine {c : Candidate} (hf : f.IsTame)
    (hsamples : ∀ s ∈ c.samples, s.x.isFinite ∧ s.IsOf f) (hcross : c.Crosses)
    (hvalue : (Origin.snap f w tol (c.refine f tol)).value.isNaN = false) :
    (Origin.snap f w tol (c.refine f tol)).abscissa.isFinite := by
  rcases hf with ⟨y, rfl⟩ | hgap
  · exact Origin.isFinite_abscissa_snap (isFinite_refine_const hsamples hcross)
  · have hon : (c.refine f tol).IsOn f := refine_isOn fun s hs ↦ (hsamples s hs).2
    obtain ⟨y, hy⟩ := Origin.exists_value_of_snap hon hvalue
    by_contra hx
    rw [hgap _ hx] at hy
    exact nomatch hy

namespace Scan

variable {σ : Type} {detector : Detector σ}

theorem Reached.isFinite_of_isTame {i : ℕ} {state : State σ} (memory : detector.Memory)
    (hcross : ∀ recent s c, (detector.detect tol recent s).1 = some c → c.Crosses)
    (hf : f.IsTame) (hw : w.isValid) (h : Reached detector f w tol i state) (hi : w.Visits i)
    (hvisit : visit detector f w tol state (w.cursor i) = .inl p)
    (hvalue : p.value.isNaN = false) : p.abscissa.isFinite := by
  obtain ⟨c, recent, memorized, hc, hsamples, rfl, -⟩ := h.found_detected memory hvisit
  apply Candidate.isFinite_snap_refine hf _ (hcross recent memorized c hc) hvalue
  intro s hs
  obtain ⟨j, -, -, -, hof⟩ := hsamples s hs
  exact ⟨(hsamples s hs).isFinite hw hi, hof⟩

theorem scan_exhausted {history : History} (h : scan detector f w tol = .exhausted history) :
    ∃ i state, Reached detector f w tol i state ∧ history = state.history := by
  rcases Reached.ends (.start : Reached detector f w tol 1 _) with
    ⟨j, state, q, -, -, -, hscan⟩ | ⟨j, state, hreach, -, hscan⟩
  · rw [hscan] at h
    exact nomatch h
  · rw [hscan] at h
    cases h
    exact ⟨j, state, hreach, rfl⟩

theorem isOf_of_exhausted {history : History} (memory : detector.Memory)
    (h : scan detector f w tol = .exhausted history) : ∀ s ∈ history.recent, s.IsOf f := by
  obtain ⟨i, state, hreach, rfl⟩ := scan_exhausted h
  intro s hs
  obtain ⟨j, -, -, -, hof⟩ := (hreach.taken memory).1 s hs
  exact hof

end Scan

/-! ## The results of the searches -/

def Point.IsLocated (p : Point) : Prop := p.abscissa.isFinite ∧ p.value.isFinite

namespace Search

theorem root_eq_or (hf : f.IsTame) :
    (∃ x : Float, x.isFinite ∧ root f w tol = ⟨x, 0⟩) ∨ root f w tol = .unlocated 0 := by
  unfold root
  split_ifs with hw
  · cases hscan : scan Detector.crossing f w tol with
    | exhausted history => exact .inr rfl
    | found p =>
        obtain ⟨i, state, hreach, hi, hvisit⟩ := Scan.scan_found hscan
        obtain ⟨-, -, -, haccept⟩ := hreach.found_candidate Detector.crossingMemory hvisit
        have hvalue := (lt_iff.mp (accepts_iff.mp haccept)).1
        rw [isNaN_abs] at hvalue
        refine .inl ⟨p.abscissa, ?_, rfl⟩
        exact hreach.isFinite_of_isTame Detector.crossingMemory
          (fun _ _ _ h ↦ Detector.crosses_of_rootCandidate? h) hf hw hi hvisit hvalue
  · exact .inr rfl

theorem exists_unlocated_of_verdict {history : History}
    (h : ∀ s ∈ history.recent, s.y.isFinite) :
    ∃ v : Float, (v.isFinite ∨ v.isNaN) ∧
      (Verdict.ofHistory history tol).point = .unlocated v := by
  have hnowhere : ∃ v : Float, (v.isFinite ∨ v.isNaN) ∧ Point.nowhere = .unlocated v :=
    ⟨Binary64.nan, .inr isNaN_nan, rfl⟩
  unfold Verdict.ofHistory
  split
  · exact hnowhere
  · next last hlast =>
      have hy : last.y.isFinite := h last (List.mem_of_mem_head? hlast)
      split_ifs
      · exact hnowhere
      · exact ⟨last.y, .inl hy, rfl⟩
      · exact ⟨last.y, .inl hy, rfl⟩
      · exact hnowhere

theorem extremum_eq_or (kind : Extremum) (hf : f.IsTame) (hfin : f.FiniteValued) :
    (extremum kind f w tol).IsLocated ∨
      ∃ v : Float, (v.isFinite ∨ v.isNaN) ∧ extremum kind f w tol = .unlocated v := by
  unfold extremum
  split_ifs with hw
  · cases hscan : scan (Detector.turn kind) f w tol with
    | exhausted history =>
        apply Or.inr
        apply exists_unlocated_of_verdict
        intro s hs
        exact hfin s.x s.y (Scan.isOf_of_exhausted (Detector.turnMemory kind) hscan s hs)
    | found p =>
        obtain ⟨i, state, hreach, hi, hvisit⟩ := Scan.scan_found hscan
        obtain ⟨-, -, -, haccept⟩ := hreach.found_candidate (Detector.turnMemory kind) hvisit
        simp only [Detector.turn, Bool.and_eq_true] at haccept
        refine .inl ⟨?_, haccept.1⟩
        exact hreach.isFinite_of_isTame (Detector.turnMemory kind)
          (fun _ _ _ h ↦ Detector.crosses_of_turnCandidate? h) hf hw hi hvisit
          (isNaN_of_isFinite haccept.1)
  · exact .inr ⟨Binary64.nan, .inr isNaN_nan, rfl⟩

theorem intersection_eq_or (hfin : f.FiniteValued) :
    (intersection f g w tol).IsLocated ∨ intersection f g w tol = .nowhere := by
  unfold intersection
  simp only
  split_ifs with hroot
  · cases hvalue : f (root (f.difference g) w tol).abscissa with
    | some y => exact .inl ⟨hroot, hfin _ y hvalue⟩
    | none => exact .inr rfl
  · exact .inr rfl

/-- What the searches over expressions return. A root has the value zero, and so has the answer that
there is none. An extremum is a finite point; the answer that there is none may carry a finite
value. An intersection is a finite point, and the answer that there is none has no value. -/
theorem results_of_exprs (a b : Expr) (symbol : String) (context : Context)
    (preferences : Preferences) (w : Window) (tol : Tolerances) :
    ((∃ x : Float, x.isFinite ∧
        root (a.graph symbol context preferences) w tol = ⟨x, 0⟩) ∨
      root (a.graph symbol context preferences) w tol = .unlocated 0) ∧
    (∀ kind, (extremum kind (a.graph symbol context preferences) w tol).IsLocated ∨
      ∃ v : Float, (v.isFinite ∨ v.isNaN) ∧
        extremum kind (a.graph symbol context preferences) w tol = .unlocated v) ∧
    ((intersection (a.graph symbol context preferences) (b.graph symbol context preferences)
        w tol).IsLocated ∨
      intersection (a.graph symbol context preferences) (b.graph symbol context preferences)
        w tol = .nowhere) := by
  refine ⟨?_, ?_, ?_⟩
  · exact root_eq_or (a.isTame_graph symbol context preferences)
  · intro kind
    exact extremum_eq_or kind (a.isTame_graph symbol context preferences)
      (a.finiteValued_graph symbol context preferences)
  · exact intersection_eq_or (a.finiteValued_graph symbol context preferences)

end Search

end CurveSearch
