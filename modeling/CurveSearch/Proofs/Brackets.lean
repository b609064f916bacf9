import CurveSearch.Proofs.Samples

/-!
# The brackets of candidates

The samples of a candidate are samples of the scan in the order in which they were taken: the last
ones come straight from the history, and the ones that a detector remembers are older. So the bracket
of a candidate is an interval, and holds all its samples.
-/

namespace CurveSearch

open Grid

variable {σ : Type} {detector : Detector σ} {f : Graph} {w : Window} {tol : Tolerances}
  {c : Candidate} {l recent : List Sample} {s : Sample}

/-! ## Detectors that keep the order -/

/-- Whether what a detector remembers and proposes stays in the order of the samples. -/
structure Detector.Memory.IsOrdered (memory : detector.Memory) : Prop where
  next : ∀ tol {l recent : List Sample} (s : Sample) {state : σ}, recent.reverse.Sublist l →
    (memory.samples state).Sublist l →
    (memory.samples (detector.detect tol (s :: recent) state).2).Sublist (l ++ [s])
  candidate : ∀ tol {l recent : List Sample} (s : Sample) {state : σ} {c : Candidate},
    recent.reverse.Sublist l → (memory.samples state).Sublist l →
    (detector.detect tol (s :: recent) state).1 = some c → c.samples.Sublist (l ++ [s])

namespace Detector

theorem ShowsRoot.reverse_samples (h : ShowsRoot tol recent c) :
    c.samples.reverse.Sublist recent := by
  cases h <;> simp [Candidate.samples]

theorem isOrdered_crossingMemory : crossingMemory.IsOrdered where
  next _ _ _ _ _ _ _ := List.nil_sublist _
  candidate tol l recent s _ c hrecent _ hc := by
    have hc : rootCandidate? tol (s :: recent) = some c := hc
    have hshown := (showsRoot_of_rootCandidate? hc).reverse_samples.reverse
    rw [List.reverse_reverse, List.reverse_cons] at hshown
    exact hshown.trans (hrecent.append (.refl [s]))

theorem Phase.sublist_rise {phase : Phase} (hrecent : recent.reverse.Sublist l)
    (hphase : phase.samples.Sublist (l ++ [s])) :
    (Phase.rise (s :: recent) phase).samples.Sublist (l ++ [s]) := by
  cases recent with
  | nil => exact hphase
  | cons prev rest =>
      have hprev : prev ∈ l := hrecent.subset (by simp)
      exact (List.singleton_sublist.mpr hprev).append (.refl [s])

theorem sublist_seekRise (kind : Extremum) {trough : Sample} (hrecent : recent.reverse.Sublist l)
    (htrough : trough ∈ l ++ [s]) :
    (seekRise kind tol (s :: recent) s trough).samples.Sublist (l ++ [s]) := by
  have hlow : (Phase.low trough).samples.Sublist (l ++ [s]) := List.singleton_sublist.mpr htrough
  unfold seekRise
  split_ifs
  · exact List.sublist_append_right l [s]
  · exact Phase.sublist_rise hrecent hlow
  · exact hlow

theorem isOrdered_turnMemory (kind : Extremum) : (turnMemory kind).IsOrdered where
  next tol l recent s phase hrecent hphase := by
    have hkept : phase.samples.Sublist (l ++ [s]) := hphase.trans (List.sublist_append_left l [s])
    change (turnCandidate? kind tol (s :: recent) phase).2.samples.Sublist (l ++ [s])
    cases phase with
    | fresh => exact sublist_seekRise kind hrecent (by simp)
    | low trough => exact sublist_seekRise kind hrecent (List.singleton_sublist.mp hkept)
    | high before best =>
        simp only [turnCandidate?]
        split_ifs
        · exact Phase.sublist_rise hrecent hkept
        · exact List.sublist_append_right l [s]
        · exact hkept
  candidate tol l recent s phase c _ hphase hc := by
    cases showsTurn_of_turnCandidate? hc
    exact hphase.append (.refl [s])

end Detector

/-! ## Scans -/

theorem History.recent_push_sublist (h : History) (s : Sample) :
    (h.push s).recent.Sublist (s :: h.recent) := by
  unfold push
  simp only
  split_ifs
  · exact List.take_sublist _ _
  · exact .refl _

namespace Scan

variable {state : State σ} {memory : detector.Memory} {i : ℕ} {y : Float}

/-- Whether all that a state holds is in the order of a list of samples. -/
structure State.Follows (memory : detector.Memory) (state : State σ) (l : List Sample) :
    Prop where
  three_le_capacity : 3 ≤ state.history.capacity
  recent : state.history.recent.reverse.Sublist l
  samples : (memory.samples state.detector).Sublist l

theorem State.follows_start (memory : detector.Memory) (tol : Tolerances) :
    (State.start detector tol).Follows memory [] where
  three_le_capacity := le_max_right _ _
  recent := .refl []
  samples := by
    rw [State.start, memory.start]

theorem State.Follows.exists_pushed (h : state.Follows memory l) (s : Sample) :
    ∃ rest, (state.pushed s.x s.y).recent = s :: rest ∧ rest.reverse.Sublist l := by
  have hcap := h.three_le_capacity
  obtain ⟨rest, hrest⟩ := History.recent_push_eq_cons (h := state.history) (s := s) (by omega)
  have hsub := History.recent_push_sublist state.history s
  rw [hrest, List.cons_sublist_cons] at hsub
  exact ⟨rest, hrest, hsub.reverse.trans h.recent⟩

theorem State.Follows.advance (hmemory : memory.IsOrdered) (h : state.Follows memory l)
    (s : Sample) : (state.advance detector tol s).Follows memory (l ++ [s]) := by
  obtain ⟨rest, hpushed, hrest⟩ := h.exists_pushed s
  refine ⟨h.three_le_capacity, ?_, ?_⟩
  · rw [State.advance, hpushed, List.reverse_cons]
    exact hrest.append (.refl [s])
  · rw [State.advance, State.detected, hpushed]
    exact hmemory.next tol s hrest h.samples

theorem State.follows_ofSamples (hmemory : memory.IsOrdered) (tol : Tolerances)
    (l : List Sample) : (State.ofSamples detector tol l).Follows memory l := by
  induction l using List.reverseRecOn with
  | nil => exact State.follows_start memory tol
  | append_singleton l s ih =>
      rw [State.ofSamples_concat]
      exact ih.advance hmemory s

theorem Reached.candidate_sublist (hmemory : memory.IsOrdered)
    (h : Reached detector f w tol i state) (hf : f (w.cursor i) = some y)
    (hc : (state.detected detector tol (w.cursor i) y).1 = some c) :
    c.samples.Sublist (w.samples f i) := by
  obtain ⟨n, rfl⟩ := Nat.exists_eq_add_one.mpr h.one_le
  have hfollows : state.Follows memory (w.samples f n) := by
    rw [h.eq_ofSamples]
    exact State.follows_ofSamples hmemory tol _
  obtain ⟨rest, hpushed, hrest⟩ := hfollows.exists_pushed ⟨w.cursor (n + 1), y⟩
  rw [State.detected, hpushed] at hc
  rw [Window.samples_succ_of_some hf]
  exact hmemory.candidate tol _ hrest hfollows.samples hc

def Proposes (detector : Detector σ) (f : Graph) (w : Window) (tol : Tolerances)
    (c : Candidate) : Prop :=
  ∃ i state y, Reached detector f w tol i state ∧ w.Visits i ∧ f (w.cursor i) = some y ∧
    (state.detected detector tol (w.cursor i) y).1 = some c

namespace Proposes

theorem pairwise_samples (hmemory : memory.IsOrdered) (hw : w.isValid)
    (h : Proposes detector f w tol c) : c.samples.Pairwise fun a b ↦ a.x ≤ b.x := by
  obtain ⟨i, state, y, hreached, hi, hf, hc⟩ := h
  exact (Window.pairwise_samples hw hi.1).sublist (hreached.candidate_sublist hmemory hf hc)

theorem exists_visited (hmemory : memory.IsOrdered) (hw : w.isValid)
    (h : Proposes detector f w tol c) (hs : s ∈ c.samples) :
    s.IsOf f ∧ ∃ j, 1 ≤ j ∧ w.Visits j ∧ s.x = w.cursor j := by
  obtain ⟨i, state, y, hreached, hi, hf, hc⟩ := h
  have hmem := (hreached.candidate_sublist hmemory hf hc).subset hs
  obtain ⟨j, hj, hlt, hx, hof⟩ := Window.mem_samples_iff.mp hmem
  exact ⟨hof, j, hj, Window.visits_of_le hw (Nat.lt_succ_iff.mp hlt) hi.1 (hi.cursor_le hw), hx⟩

end Proposes

end Scan

/-! ## Brackets -/

namespace Candidate

/-- The interval in which a candidate is refined; of a sample, the sample. -/
def bracket : Candidate → Bracket
  | .exact s => ⟨s, s⟩
  | .signChange bracket => bracket
  | .peak bracket _ _ => bracket

theorem lo_mem_samples (c : Candidate) : c.bracket.lo ∈ c.samples := by
  cases c <;> simp [bracket, samples]

theorem hi_mem_samples (c : Candidate) : c.bracket.hi ∈ c.samples := by
  cases c <;> simp [bracket, samples]

theorem between_bracket (hnan : ∀ s ∈ c.samples, s.x.isNaN = false)
    (hpairwise : c.samples.Pairwise fun a b ↦ a.x ≤ b.x) :
    ∀ s ∈ c.samples, Between c.bracket.lo.x c.bracket.hi.x s.x := by
  have hrefl : ∀ s ∈ c.samples, s.x ≤ s.x := fun s hs ↦ Grid.le_refl (hnan s hs)
  cases c with
  | exact t =>
      rw [samples, List.forall_mem_singleton] at hrefl ⊢
      exact ⟨hrefl, hrefl⟩
  | signChange b =>
      simp only [samples, List.forall_mem_cons, List.pairwise_cons] at hrefl hpairwise ⊢
      obtain ⟨hlo, hhi, -⟩ := hrefl
      have hle : b.lo.x ≤ b.hi.x := hpairwise.1.1
      exact ⟨⟨hlo, hle⟩, ⟨hle, hhi⟩, fun _ h ↦ absurd h List.not_mem_nil⟩
  | peak b mid goal =>
      simp only [samples, List.forall_mem_cons, List.pairwise_cons] at hrefl hpairwise ⊢
      obtain ⟨hlo, -, hhi, -⟩ := hrefl
      obtain ⟨⟨hleft, hle, -⟩, ⟨hright, -⟩, -⟩ := hpairwise
      exact ⟨⟨hlo, hle⟩, ⟨hleft, hright⟩, ⟨hle, hhi⟩, fun _ h ↦ absurd h List.not_mem_nil⟩

/-- Whether an abscissa is one that a candidate may be refined to: the one of the sample, or one in
the bracket. -/
def Covers : Candidate → Float → Prop
  | .exact s, x => x = s.x
  | .signChange bracket, x => Between bracket.lo.x bracket.hi.x x
  | .peak bracket _ _, x => Between bracket.lo.x bracket.hi.x x

theorem covers_refine (h : Between c.bracket.lo.x c.bracket.hi.x (c.refine f tol).abscissa) :
    c.Covers (c.refine f tol).abscissa := by
  cases c with
  | exact s => rfl
  | signChange bracket => exact h
  | peak bracket mid goal => exact h

end Candidate

end CurveSearch
