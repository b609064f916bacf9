import CurveSearch.Detector.Crossing
import CurveSearch.Detector.Turn
import CurveSearch.Proofs.Cursor
import CurveSearch.Proofs.Refinement
import CurveSearch.Scan

/-!
# The run of a scan

A scan is a run through states, one for each cursor it arrives at. What holds of the first state and
is kept by one visit holds of all of them: here, that the samples a scan remembers are samples of
the graph over earlier cursors. A point that ends the scan is therefore the refined point of a
candidate made of such samples, and lies between the first cursor and the last one.
-/

namespace CurveSearch

open Grid

/-! ## What detectors remember -/

/-- The samples in the state of a detector. A detector sees only the last samples and its state, so
neither its next state nor its candidate holds any other sample. -/
structure Detector.Memory {σ : Type} (detector : Detector σ) where
  samples : σ → List Sample
  start : samples detector.start = []
  next : ∀ tol recent state, ∀ s ∈ samples (detector.detect tol recent state).2,
    s ∈ recent ∨ s ∈ samples state
  candidate : ∀ tol recent state c, (detector.detect tol recent state).1 = some c →
    ∀ s ∈ c.samples, s ∈ recent ∨ s ∈ samples state

namespace Detector

/-- What the latest samples show of a root, with all that the detector has checked. -/
inductive ShowsRoot (tol : Tolerances) : List Sample → Candidate → Prop
  | exact {cur : Sample} {earlier : List Sample} : cur.y.abs ≤ tol.zeroEps →
      ShowsRoot tol (cur :: earlier) (.exact cur)
  | signChange {cur prev : Sample} {earlier : List Sample} : ¬ cur.y.abs ≤ tol.zeroEps →
      prev.isNegative ≠ cur.isNegative →
      ShowsRoot tol (cur :: prev :: earlier) (.signChange ⟨prev, cur⟩)
  | touch {cur prev first : Sample} {earlier : List Sample} : ¬ cur.y.abs ≤ tol.zeroEps →
      prev.isNegative = cur.isNegative → touches first prev cur →
      ShowsRoot tol (cur :: prev :: first :: earlier) (.peak ⟨first, cur⟩ prev .minimizeAbs)

theorem showsRoot_of_rootCandidate? {tol : Tolerances} {recent : List Sample} {c : Candidate}
    (h : rootCandidate? tol recent = some c) : ShowsRoot tol recent c := by
  unfold rootCandidate? at h
  split at h
  · exact nomatch h
  · split_ifs at h with hexact
    · cases h
      exact .exact hexact
    · split at h
      · exact nomatch h
      · split_ifs at h with hsign
        · cases h
          exact .signChange hexact (bne_iff_ne.mp hsign)
        · split at h
          · exact nomatch h
          · split_ifs at h with htouches
            cases h
            exact .touch hexact (by simpa using hsign) htouches

theorem ShowsRoot.rootCandidate?_eq {tol : Tolerances} {recent : List Sample} {c : Candidate}
    (h : ShowsRoot tol recent c) : rootCandidate? tol recent = some c := by
  cases h with
  | exact hexact => exact if_pos hexact
  | signChange hexact hsign => simp [rootCandidate?, hexact, hsign]
  | touch hexact hsign htouches => simp [rootCandidate?, hexact, hsign, htouches]

theorem rootCandidate?_samples {tol : Tolerances} {recent : List Sample} {c : Candidate}
    (h : rootCandidate? tol recent = some c) : ∀ s ∈ c.samples, s ∈ recent := by
  cases showsRoot_of_rootCandidate? h <;> simp [Candidate.samples]

/-- The detector of roots remembers nothing. -/
def crossingMemory : crossing.Memory where
  samples _ := []
  start := rfl
  next _ _ _ _ hs := nomatch hs
  candidate _ _ _ _ hc s hs := .inl (rootCandidate?_samples hc s hs)

def Phase.samples : Phase → List Sample
  | .fresh => []
  | .low trough => [trough]
  | .high before best => [before, best]

theorem Phase.samples_rise (recent : List Sample) (phase : Phase) :
    ∀ s ∈ (Phase.rise recent phase).samples, s ∈ recent ∨ s ∈ phase.samples := by
  unfold Phase.rise
  split
  · next cur prev _ _ =>
      intro s hs
      simp only [samples, List.mem_cons, List.not_mem_nil, or_false] at hs
      rcases hs with rfl | rfl <;> simp
  · exact fun s hs ↦ .inr hs

theorem samples_seekRise (kind : Extremum) (tol : Tolerances) {recent : List Sample}
    {cur : Sample} (hcur : cur ∈ recent) (trough : Sample) :
    ∀ s ∈ (seekRise kind tol recent cur trough).samples, s ∈ recent ∨ s = trough := by
  unfold seekRise
  split_ifs
  · intro s hs
    rw [Phase.samples, List.mem_singleton] at hs
    exact .inl (hs ▸ hcur)
  · intro s hs
    simpa [Phase.samples] using Phase.samples_rise recent (.low trough) s hs
  · intro s hs
    exact .inr (List.mem_singleton.mp hs)

/-- What the latest sample and the phase show of a turn. -/
inductive ShowsTurn (kind : Extremum) (tol : Tolerances) : List Sample → Phase → Candidate → Prop
  | fall {cur before best : Sample} {earlier : List Sample} :
      ¬ kind.height best < kind.height cur → kind.height cur < kind.height best - tol.eps →
      ShowsTurn kind tol (cur :: earlier) (.high before best)
        (.peak ⟨before, cur⟩ best kind.goal)

theorem showsTurn_of_turnCandidate? {kind : Extremum} {tol : Tolerances} {recent : List Sample}
    {phase : Phase} {c : Candidate} (h : (turnCandidate? kind tol recent phase).1 = some c) :
    ShowsTurn kind tol recent phase c := by
  unfold turnCandidate? at h
  split at h
  · exact nomatch h
  · exact nomatch h
  · exact nomatch h
  · split_ifs at h with hhigher hfall
    cases h
    exact .fall hhigher hfall

theorem samples_turnCandidate? (kind : Extremum) (tol : Tolerances) (recent : List Sample)
    (phase : Phase) :
    ∀ s ∈ (turnCandidate? kind tol recent phase).2.samples, s ∈ recent ∨ s ∈ phase.samples := by
  unfold turnCandidate?
  split
  · exact fun s hs ↦ .inr hs
  · next cur earlier =>
      intro s hs
      rcases samples_seekRise kind tol (by simp) cur s hs with h | rfl
      · exact .inl h
      · exact .inl (by simp)
  · next cur earlier trough =>
      intro s hs
      rcases samples_seekRise kind tol (by simp) trough s hs with h | rfl
      · exact .inl h
      · exact .inr (by simp [Phase.samples])
  · next cur earlier before best =>
      split_ifs
      · exact Phase.samples_rise _ _
      · intro s hs
        rw [Phase.samples, List.mem_singleton] at hs
        exact .inl (by simp [hs])
      · exact fun s hs ↦ .inr hs

theorem turnCandidate?_samples {kind : Extremum} {tol : Tolerances} {recent : List Sample}
    {phase : Phase} {c : Candidate} (h : (turnCandidate? kind tol recent phase).1 = some c) :
    ∀ s ∈ c.samples, s ∈ recent ∨ s ∈ phase.samples := by
  cases showsTurn_of_turnCandidate? h
  intro s hs
  simp only [Candidate.samples, List.mem_cons, List.not_mem_nil, or_false] at hs
  rcases hs with rfl | rfl | rfl <;> simp [Phase.samples]

/-- The detector of extrema remembers the samples of its phase. -/
def turnMemory (kind : Extremum) : (turn kind).Memory where
  samples := Phase.samples
  start := rfl
  next := samples_turnCandidate? kind
  candidate _ _ _ _ hc := turnCandidate?_samples hc

end Detector

theorem History.mem_recent_push {h : History} {s s' : Sample} (hs : s' ∈ (h.push s).recent) :
    s' = s ∨ s' ∈ h.recent := by
  unfold push at hs
  simp only at hs
  split_ifs at hs
  · exact List.mem_cons.mp (List.mem_of_mem_take hs)
  · exact List.mem_cons.mp hs

/-! ## Runs -/

def Window.Visits (w : Window) (i : ℕ) : Prop := i < 2 ^ 64 ∧ ¬ w.max < w.cursor i

theorem Window.Visits.cursor_le {w : Window} {i : ℕ} (hw : w.isValid) (h : w.Visits i) :
    w.cursor i ≤ w.max :=
  (not_lt_iff (isNaN_of_isFinite (isValid_iff.mp hw).2.1) (isNaN_cursor hw i)).mp h.2

theorem Window.visits_of_cursor_le {w : Window} {i : ℕ} (hi : i < 2 ^ 64)
    (h : w.cursor i ≤ w.max) : w.Visits i := by
  obtain ⟨hcursor, hmax, -⟩ := le_iff.mp h
  exact ⟨hi, (not_lt_iff hmax hcursor).mpr h⟩

theorem Window.visits_of_le {w : Window} {i j : ℕ} (hw : w.isValid) (hj : j ≤ i) (hi : i < 2 ^ 64)
    (hle : w.cursor i ≤ w.max) : w.Visits j :=
  visits_of_cursor_le (hj.trans_lt hi) (Grid.le_trans (cursor_mono hw hj hi) hle)

namespace Scan

variable {σ : Type} {detector : Detector σ} {f : Graph} {w : Window} {tol : Tolerances}
  {i j : ℕ} {state next : State σ} {p : Point}

variable (detector f w tol) in
/-- The indices and states that a scan arrives at. -/
inductive Reached : ℕ → State σ → Prop
  | start : Reached 1 (.start detector tol)
  | step {i : ℕ} {state next : State σ} : Reached i state → w.Visits i →
      visit detector f w tol state (w.cursor i) = .inr next → Reached (i + 1) next

theorem Reached.one_le (h : Reached detector f w tol i state) : 1 ≤ i := by
  induction h with
  | start => exact le_rfl
  | step _ _ _ ih => omega

theorem run_of_visits (h : w.Visits i) :
    run detector f w tol state i =
      match visit detector f w tol state (w.cursor i) with
      | .inl p => .found p
      | .inr state => run detector f w tol state (i + 1) := by
  have hi : i < UInt64.size := h.1
  rw [run, if_pos hi]
  refine (if_neg h.2).trans ?_
  cases visit detector f w tol state (w.cursor i) <;> rfl

theorem run_of_not_visits (h : ¬ w.Visits i) :
    run detector f w tol state i = .exhausted state.history := by
  rw [run]
  split_ifs with hi
  · simp only
    rw [if_pos (by
      by_contra hmax
      exact h ⟨hi, hmax⟩)]
  · rfl

/-- The run from any state that a scan arrives at is the rest of the scan. -/
theorem Reached.scan_eq (h : Reached detector f w tol i state) :
    scan detector f w tol = run detector f w tol state i := by
  induction h with
  | start => rfl
  | step _ hi hvisit ih => rw [ih, run_of_visits hi, hvisit]

theorem Reached.scan_eq_found (h : Reached detector f w tol i state) (hi : w.Visits i)
    (hvisit : visit detector f w tol state (w.cursor i) = .inl p) :
    scan detector f w tol = .found p := by
  rw [h.scan_eq, run_of_visits hi, hvisit]

/-- A scan ends at a cursor it visits, with a point, or at one it does not visit, without. -/
theorem Reached.ends (h : Reached detector f w tol i state) :
    (∃ j state p, Reached detector f w tol j state ∧ w.Visits j ∧
      visit detector f w tol state (w.cursor j) = .inl p ∧ scan detector f w tol = .found p) ∨
    ∃ j state, Reached detector f w tol j state ∧ ¬ w.Visits j ∧
      scan detector f w tol = .exhausted state.history := by
  -- The indices that are left become fewer.
  induction hn : 2 ^ 64 - i using Nat.strong_induction_on generalizing i state with
  | _ n ih =>
      by_cases hi : w.Visits i
      · cases hvisit : visit detector f w tol state (w.cursor i) with
        | inl p => exact .inl ⟨i, state, p, h, hi, hvisit, h.scan_eq_found hi hvisit⟩
        | inr next =>
            have hlt := hi.1
            exact ih (2 ^ 64 - (i + 1)) (by omega) (h.step hi hvisit) rfl
      · exact .inr ⟨i, state, h, hi, by rw [h.scan_eq, run_of_not_visits hi]⟩

theorem scan_found (h : scan detector f w tol = .found p) :
    ∃ i state, Reached detector f w tol i state ∧ w.Visits i ∧
      visit detector f w tol state (w.cursor i) = .inl p := by
  rcases Reached.ends (.start : Reached detector f w tol 1 _) with
    ⟨j, state, q, hreach, hj, hvisit, hscan⟩ | ⟨j, state, -, -, hscan⟩
  · rw [hscan] at h
    cases h
    exact ⟨j, state, hreach, hj, hvisit⟩
  · rw [hscan] at h
    exact nomatch h

variable (detector f tol) in
/-- Over visited cursors a scan goes on until it finds a point. -/
theorem reached_or_found (hvisits : ∀ j, 1 ≤ j → j < i → w.Visits j) (hi : 1 ≤ i) :
    (∃ state, Reached detector f w tol i state) ∨
    ∃ j state p, j < i ∧ Reached detector f w tol j state ∧ w.Visits j ∧
      visit detector f w tol state (w.cursor j) = .inl p := by
  induction i, hi using Nat.le_induction with
  | base => exact .inl ⟨_, .start⟩
  | succ i hi ih =>
      rcases ih (fun j hj hlt ↦ hvisits j hj (by omega)) with
        ⟨state, hreach⟩ | ⟨j, state, p, hj, hreach, hvis, hvisit⟩
      · have hvis := hvisits i hi (by omega)
        cases hvisit : visit detector f w tol state (w.cursor i) with
        | inl p => exact .inr ⟨i, state, p, by omega, hreach, hvis, hvisit⟩
        | inr next => exact .inl ⟨next, hreach.step hvis hvisit⟩
      · exact .inr ⟨j, state, p, by omega, hreach, hvis, hvisit⟩

/-! ## What one sample does -/

def State.pushed (state : State σ) (x y : Float) : History := state.history.push ⟨x, y⟩

def State.detected (detector : Detector σ) (tol : Tolerances) (state : State σ) (x y : Float) :
    Option Candidate × σ :=
  detector.detect tol (state.pushed x y).recent state.detector

theorem visit_of_eq_none {x : Float} (h : f x = none) :
    visit detector f w tol state x = .inr state := by
  rw [visit, h]

theorem visit_of_eq_some {x y : Float} (h : f x = some y) :
    visit detector f w tol state x =
      match (state.detected detector tol x y).1 with
      | none => .inr ⟨state.pushed x y, (state.detected detector tol x y).2⟩
      | some c =>
          if detector.accepts tol (Origin.snap f w tol (c.refine f tol)) then
            .inl (Origin.snap f w tol (c.refine f tol))
          else .inr ⟨state.pushed x y, (state.detected detector tol x y).2⟩ := by
  rw [visit, h]
  rfl

/-- What a visit does. A gap changes nothing; a sample joins the history and the detector takes it,
or its candidate is refined and accepted and ends the scan. -/
theorem visit_cases (detector : Detector σ) (f : Graph) (w : Window) (tol : Tolerances)
    (state : State σ) (x : Float) :
    f x = none ∧ visit detector f w tol state x = .inr state ∨
    ∃ y, f x = some y ∧
      ((∃ c, (state.detected detector tol x y).1 = some c ∧
        detector.accepts tol (Origin.snap f w tol (c.refine f tol)) ∧
        visit detector f w tol state x = .inl (Origin.snap f w tol (c.refine f tol))) ∨
      visit detector f w tol state x =
        .inr ⟨state.pushed x y, (state.detected detector tol x y).2⟩) := by
  cases hf : f x with
  | none => exact .inl ⟨rfl, visit_of_eq_none hf⟩
  | some y =>
      refine .inr ⟨y, rfl, ?_⟩
      rw [visit_of_eq_some hf]
      cases hc : (state.detected detector tol x y).1 with
      | none => exact .inr rfl
      | some c =>
          simp only
          split_ifs with haccept
          · exact .inl ⟨c, rfl, haccept, rfl⟩
          · exact .inr rfl

/-- A sample of the graph over a cursor that was visited before the given index. -/
def TakenBefore (f : Graph) (w : Window) (i : ℕ) (s : Sample) : Prop :=
  ∃ j, 1 ≤ j ∧ j < i ∧ s.x = w.cursor j ∧ s.IsOf f

theorem TakenBefore.mono {s : Sample} (h : TakenBefore f w i s) (hij : i ≤ j) :
    TakenBefore f w j s := by
  obtain ⟨k, hk, hlt, hs⟩ := h
  exact ⟨k, hk, hlt.trans_le hij, hs⟩

theorem takenBefore_of_mem_pushed {s : Sample} {y : Float} (hi : 1 ≤ i)
    (hf : f (w.cursor i) = some y) (h : ∀ s ∈ state.history.recent, TakenBefore f w i s)
    (hs : s ∈ (state.pushed (w.cursor i) y).recent) : TakenBefore f w (i + 1) s := by
  rcases History.mem_recent_push hs with rfl | hs
  · exact ⟨i, hi, Nat.lt_succ_self i, rfl, hf⟩
  · exact (h s hs).mono (Nat.le_succ i)

/-- Everything that a scan remembers was taken before. -/
theorem Reached.taken (memory : detector.Memory) (h : Reached detector f w tol i state) :
    (∀ s ∈ state.history.recent, TakenBefore f w i s) ∧
      ∀ s ∈ memory.samples state.detector, TakenBefore f w i s := by
  induction h with
  | start =>
      constructor
      · exact fun s hs ↦ nomatch hs
      · intro s hs
        rw [State.start, memory.start] at hs
        exact nomatch hs
  | @step i state next hreach hi hvisit ih =>
      rcases visit_cases detector f w tol state (w.cursor i) with
        ⟨-, heq⟩ | ⟨y, hf, ⟨c, -, -, heq⟩ | heq⟩ <;> rw [heq] at hvisit
      · cases hvisit
        exact ⟨fun s hs ↦ (ih.1 s hs).mono (Nat.le_succ i),
          fun s hs ↦ (ih.2 s hs).mono (Nat.le_succ i)⟩
      · exact nomatch hvisit
      · cases hvisit
        refine ⟨fun s hs ↦ takenBefore_of_mem_pushed hreach.one_le hf ih.1 hs, fun s hs ↦ ?_⟩
        rcases memory.next _ _ _ s hs with hs | hs
        · exact takenBefore_of_mem_pushed hreach.one_le hf ih.1 hs
        · exact (ih.2 s hs).mono (Nat.le_succ i)

/-- A point that ends a scan is the snapped refinement of a candidate that the detector makes of
samples, and the detector accepts it. -/
theorem Reached.found_detected (memory : detector.Memory) (h : Reached detector f w tol i state)
    (hvisit : visit detector f w tol state (w.cursor i) = .inl p) :
    ∃ (c : Candidate) (recent : List Sample) (memorized : σ),
      (detector.detect tol recent memorized).1 = some c ∧
      (∀ s ∈ c.samples, TakenBefore f w (i + 1) s) ∧
      p = Origin.snap f w tol (c.refine f tol) ∧ detector.accepts tol p := by
  obtain ⟨hrecent, hmemory⟩ := h.taken memory
  rcases visit_cases detector f w tol state (w.cursor i) with
    ⟨-, heq⟩ | ⟨y, hf, ⟨c, hc, haccept, heq⟩ | heq⟩ <;> rw [heq] at hvisit
  · exact nomatch hvisit
  · cases hvisit
    refine ⟨c, _, _, hc, fun s hs ↦ ?_, rfl, haccept⟩
    rcases memory.candidate _ _ _ c hc s hs with hs | hs
    · exact takenBefore_of_mem_pushed h.one_le hf hrecent hs
    · exact (hmemory s hs).mono (Nat.le_succ i)
  · exact nomatch hvisit

theorem Reached.found_candidate (memory : detector.Memory) (h : Reached detector f w tol i state)
    (hvisit : visit detector f w tol state (w.cursor i) = .inl p) :
    ∃ c : Candidate, (∀ s ∈ c.samples, TakenBefore f w (i + 1) s) ∧
      p = Origin.snap f w tol (c.refine f tol) ∧ detector.accepts tol p := by
  obtain ⟨c, -, -, -, hc⟩ := h.found_detected memory hvisit
  exact ⟨c, hc⟩

/-! ## Where a scan ends -/

theorem TakenBefore.between {s : Sample} (hw : w.isValid) (hi : w.Visits i)
    (h : TakenBefore f w (i + 1) s) : Between (w.cursor 1) (w.cursor i) s.x := by
  obtain ⟨j, hj, hlt, hx, -⟩ := h
  rw [hx]
  exact ⟨Window.cursor_mono hw hj (by have := hi.1; omega),
    Window.cursor_mono hw (by omega) hi.1⟩

theorem TakenBefore.isFinite {s : Sample} (hw : w.isValid) (hi : w.Visits i)
    (h : TakenBefore f w (i + 1) s) : s.x.isFinite := by
  have hbetween := h.between hw hi
  have hlast := hi.cursor_le hw
  have hfirst := Grid.le_trans (Grid.le_trans hbetween.1 hbetween.2) hlast
  exact hbetween.isFinite (Window.isFinite_cursor hw hfirst) (Window.isFinite_cursor hw hlast)

/-- A finite point that ends a scan lies between the first cursor and the last one visited, or it
was moved to the origin. -/
theorem Reached.found_between (memory : detector.Memory) (hw : w.isValid)
    (h : Reached detector f w tol i state) (hi : w.Visits i)
    (hvisit : visit detector f w tol state (w.cursor i) = .inl p) (hfin : p.abscissa.isFinite) :
    Between (w.cursor 1) (w.cursor i) p.abscissa ∨ Origin.inWindow w ∧ p.abscissa = 0 := by
  obtain ⟨c, hc, rfl, -⟩ := h.found_candidate memory hvisit
  have hlast := hi.cursor_le hw
  have hfirst := Grid.le_trans (Window.cursor_mono hw h.one_le hi.1) hlast
  rcases Origin.snap_abscissa_cases f w tol (c.refine f tol) with heq | ⟨hin, heq⟩
  · rw [heq] at hfin ⊢
    exact .inl (Candidate.refine_between (Window.isFinite_cursor hw hfirst)
      (Window.isFinite_cursor hw hlast) (fun s hs ↦ (hc s hs).between hw hi) hfin)
  · exact .inr ⟨hin, heq⟩

theorem Reached.isFinite_found {a b : Float} (memory : detector.Memory) (hw : w.isValid)
    (ha : (a + a).isFinite) (hb : (b + b).isFinite) (hstart : a ≤ w.start) (hmax : w.max ≤ b)
    (h : Reached detector f w tol i state) (hi : w.Visits i)
    (hvisit : visit detector f w tol state (w.cursor i) = .inl p) : p.abscissa.isFinite := by
  obtain ⟨c, hc, rfl, -⟩ := h.found_candidate memory hvisit
  refine Origin.isFinite_abscissa_snap (Candidate.isFinite_refine ha hb fun s hs ↦ ?_)
  obtain ⟨hlow, hhigh⟩ := (hc s hs).between hw hi
  exact ⟨Grid.le_trans hstart (Grid.le_trans (Window.start_le_cursor hw 1) hlow),
    Grid.le_trans hhigh (Grid.le_trans (hi.cursor_le hw) hmax)⟩

end Scan

end CurveSearch
