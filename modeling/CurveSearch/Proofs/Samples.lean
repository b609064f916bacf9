import CurveSearch.Proofs.Turn

/-!
# The samples that a scan takes

What a scan has gathered when it arrives at a cursor is a function of the samples over the cursors
before: gaps leave no trace, and a rejected candidate leaves none beyond the state of the detector.
So a scan is a detector that is fed with a list, and its history keeps of the list what the verdict
needs: the length, the last sample, and the greatest and the least value.
-/

namespace CurveSearch

open Grid

deriving instance DecidableEq for Sample, Bracket, Candidate, Point

variable {σ : Type} {detector : Detector σ} {f : Graph} {w : Window} {tol : Tolerances}

namespace Window

def samples (w : Window) (f : Graph) : ℕ → List Sample
  | 0 => []
  | n + 1 => w.samples f n ++ ((f (w.cursor (n + 1))).map (Sample.mk (w.cursor (n + 1)))).toList

theorem samples_succ_of_none {n : ℕ} (h : f (w.cursor (n + 1)) = none) :
    w.samples f (n + 1) = w.samples f n := by
  rw [samples, h, Option.map_none, Option.toList_none, List.append_nil]

theorem samples_succ_of_some {n : ℕ} {y : Float} (h : f (w.cursor (n + 1)) = some y) :
    w.samples f (n + 1) = w.samples f n ++ [⟨w.cursor (n + 1), y⟩] := by
  rw [samples, h, Option.map_some, Option.toList_some]

theorem samples_prefix {m n : ℕ} (h : m ≤ n) : w.samples f m <+: w.samples f n := by
  induction n, h using Nat.le_induction with
  | base => exact List.prefix_rfl
  | succ n _ ih => exact ih.trans (List.prefix_append _ _)

theorem mem_samples_iff {n : ℕ} {s : Sample} :
    s ∈ w.samples f n ↔ Scan.TakenBefore f w (n + 1) s := by
  induction n with
  | zero =>
      refine iff_of_false List.not_mem_nil ?_
      rintro ⟨j, hj, hlt, -⟩
      omega
  | succ n ih =>
      rw [samples, List.mem_append, ih]
      constructor
      · rintro (h | h)
        · exact h.mono (Nat.le_succ _)
        · obtain ⟨y, hy, rfl⟩ := Option.map_eq_some_iff.mp (Option.mem_toList.mp h)
          exact ⟨n + 1, by omega, by omega, rfl, hy⟩
      · rintro ⟨j, hj, hlt, hx, hs⟩
        rcases Nat.lt_succ_iff_lt_or_eq.mp hlt with hlt | rfl
        · exact .inl ⟨j, hj, hlt, hx, hs⟩
        · refine .inr (Option.mem_toList.mpr ?_)
          rw [← hx]
          exact Option.map_eq_some_iff.mpr ⟨s.y, hs, rfl⟩

theorem pairwise_samples (hw : w.isValid) {n : ℕ} (hn : n < 2 ^ 64) :
    (w.samples f n).Pairwise fun a b ↦ a.x ≤ b.x := by
  induction n with
  | zero => exact .nil
  | succ n ih =>
      rw [samples, List.pairwise_append]
      refine ⟨ih (by omega), ?_, fun a ha b hb ↦ ?_⟩
      · cases f (w.cursor (n + 1)) <;> simp
      · obtain ⟨j, -, hj, hx, -⟩ := mem_samples_iff.mp ha
        obtain ⟨y, -, rfl⟩ := Option.map_eq_some_iff.mp (Option.mem_toList.mp hb)
        rw [hx]
        exact cursor_mono hw hj.le hn

end Window

namespace Scan

/-! ## Feeding a detector with a list -/

def State.advance (detector : Detector σ) (tol : Tolerances) (state : State σ) (s : Sample) :
    State σ :=
  ⟨state.pushed s.x s.y, (state.detected detector tol s.x s.y).2⟩

/-- The state after the samples of a list, of which none ends the scan. -/
def State.ofSamples (detector : Detector σ) (tol : Tolerances) (l : List Sample) : State σ :=
  l.foldl (State.advance detector tol) (.start detector tol)

theorem State.ofSamples_concat (detector : Detector σ) (tol : Tolerances) (l : List Sample)
    (s : Sample) :
    State.ofSamples detector tol (l ++ [s]) =
      (State.ofSamples detector tol l).advance detector tol s :=
  List.foldl_concat ..

theorem Reached.step_of_silent {i : ℕ} {state : State σ} {y : Float}
    (h : Reached detector f w tol i state) (hi : w.Visits i) (hf : f (w.cursor i) = some y)
    (hc : (state.detected detector tol (w.cursor i) y).1 = none) :
    Reached detector f w tol (i + 1) (state.advance detector tol ⟨w.cursor i, y⟩) := by
  refine h.step hi ?_
  rw [visit_of_eq_some hf, hc]
  rfl

theorem Reached.eq_ofSamples {i : ℕ} {state : State σ} (h : Reached detector f w tol i state) :
    state = .ofSamples detector tol (w.samples f (i - 1)) := by
  induction h with
  | start => rfl
  | @step i state next hreached _ hvisit ih =>
      obtain ⟨n, rfl⟩ : ∃ n, i = n + 1 := ⟨i - 1, by have := hreached.one_le; omega⟩
      change next = .ofSamples detector tol (w.samples f (n + 1))
      -- A gap leaves the state alone, and a rejected candidate leaves what silence leaves.
      rcases visit_cases detector f w tol state (w.cursor (n + 1)) with
        ⟨hf, heq⟩ | ⟨y, hf, ⟨c, -, -, heq⟩ | heq⟩
      · rw [heq] at hvisit
        cases hvisit
        rw [Window.samples_succ_of_none hf]
        exact ih
      · rw [heq] at hvisit
        exact nomatch hvisit
      · rw [heq] at hvisit
        cases hvisit
        rw [Window.samples_succ_of_some hf, State.ofSamples_concat]
        exact congrArg (fun t ↦ State.advance detector tol t ⟨w.cursor (n + 1), y⟩) ih

end Scan

/-! ## A list as the beginning of a stream -/

def stream (l : List Sample) (n : ℕ) : Sample := l.getD n ⟨0, 0⟩

theorem stream_eq_getElem {l : List Sample} {n : ℕ} (h : n < l.length) : stream l n = l[n] :=
  List.getD_eq_getElem _ _ h

theorem stream_length_of_prefix {l l' : List Sample} {s : Sample} (h : l ++ [s] <+: l') :
    stream l' l.length = s := by
  obtain ⟨rest, rfl⟩ := h
  simp [stream]

theorem forall_stream {l : List Sample} {p : Sample → Prop} (h : ∀ s ∈ l, p s) :
    ∀ i < l.length, p (stream l i) := by
  intro i hi
  rw [stream_eq_getElem hi]
  exact h _ (List.getElem_mem hi)

namespace Detector

variable (detector tol) in
theorem fed_stream_of_prefix {l l' : List Sample} (h : l <+: l') :
    fed detector tol (stream l') l.length = .ofSamples detector tol l := by
  induction l using List.reverseRecOn with
  | nil => rfl
  | append_singleton l s ih =>
      have hs : stream l' l.length = s := stream_length_of_prefix h
      rw [List.length_append, List.length_singleton, Scan.State.ofSamples_concat,
        ← ih ((List.prefix_append l [s]).trans h), ← hs]
      rfl

end Detector

namespace Scan

/-- What a scan makes of the sample over a cursor is what the detector answers to it in the stream
of all samples. -/
theorem Reached.detected_eq_answer {n : ℕ} {state : State σ} {y : Float} {l : List Sample}
    (h : Reached detector f w tol (n + 1) state) (hf : f (w.cursor (n + 1)) = some y)
    (hl : w.samples f (n + 1) <+: l) :
    stream l (w.samples f n).length = ⟨w.cursor (n + 1), y⟩ ∧
      (state.detected detector tol (w.cursor (n + 1)) y).1 =
        detector.answer tol (stream l) (w.samples f n).length := by
  have hprefix := hl
  rw [Window.samples_succ_of_some hf] at hprefix
  have hs := stream_length_of_prefix hprefix
  have hfed := Detector.fed_stream_of_prefix detector tol
    ((List.prefix_append _ _).trans hprefix)
  obtain rfl : state = .ofSamples detector tol (w.samples f n) := h.eq_ofSamples
  refine ⟨hs, ?_⟩
  rw [Detector.answer, hs, hfed]

end Scan

/-! ## What the history keeps -/

theorem Binary64.minimum_eq_or (a b : Float) : minimum a b = a ∨ minimum a b = b := by
  unfold minimum
  split_ifs <;> simp

theorem Binary64.maximum_eq_or (a b : Float) : maximum a b = a ∨ maximum a b = b := by
  unfold maximum
  split_ifs <;> simp

theorem Binary64.minimum_infinity {y : Float} (h : y.isFinite) : minimum infinity y = y := by
  obtain ⟨hnan, hlt⟩ := isFinite_iff.mp h
  have hle : y ≤ infinity :=
    le_iff.mpr ⟨hnan, rfl, (abs_lt.mp hlt).2.le⟩
  unfold minimum
  rw [if_neg fun h ↦ (lt_iff.mp h).2.2.not_ge (le_iff.mp hle).2.2, if_neg Bool.noConfusion,
    if_pos hle]

theorem Binary64.maximum_negInfinity {y : Float} (h : y.isFinite) :
    maximum negInfinity y = y := by
  obtain ⟨hnan, hlt⟩ := isFinite_iff.mp h
  have hle : negInfinity ≤ y :=
    le_iff.mpr ⟨rfl, hnan, (abs_lt.mp hlt).1.le⟩
  unfold maximum
  rw [if_neg fun h ↦ (lt_iff.mp h).2.2.not_ge (le_iff.mp hle).2.2, if_neg Bool.noConfusion,
    if_pos hle]

namespace Samples

def lowest (l : List Sample) : Float :=
  l.foldl (fun low s ↦ Binary64.minimum low s.y) Binary64.infinity

def highest (l : List Sample) : Float :=
  l.foldl (fun high s ↦ Binary64.maximum high s.y) Binary64.negInfinity

theorem exists_range {l : List Sample} (hne : l ≠ []) (h : ∀ s ∈ l, s.y.isFinite) :
    ∃ a ∈ l, ∃ b ∈ l, lowest l = a.y ∧ highest l = b.y := by
  induction l using List.reverseRecOn with
  | nil => exact absurd rfl hne
  | append_singleton l s ih =>
      have hs : s ∈ l ++ [s] := List.mem_append_right l (List.mem_singleton_self s)
      have hlow : lowest (l ++ [s]) = Binary64.minimum (lowest l) s.y := List.foldl_concat ..
      have hhigh : highest (l ++ [s]) = Binary64.maximum (highest l) s.y := List.foldl_concat ..
      rw [hlow, hhigh]
      rcases eq_or_ne l [] with rfl | hl
      · exact ⟨s, hs, s, hs, Binary64.minimum_infinity (h s hs),
          Binary64.maximum_negInfinity (h s hs)⟩
      · obtain ⟨a, ha, b, hb, hlow, hhigh⟩ := ih hl fun t ht ↦ h t (List.mem_append_left _ ht)
        rw [hlow, hhigh]
        have ha := List.mem_append_left [s] ha
        have hb := List.mem_append_left [s] hb
        rcases Binary64.minimum_eq_or a.y s.y with hmin | hmin <;>
          rcases Binary64.maximum_eq_or b.y s.y with hmax | hmax
        · exact ⟨a, ha, b, hb, hmin, hmax⟩
        · exact ⟨a, ha, s, hs, hmin, hmax⟩
        · exact ⟨s, hs, b, hb, hmin, hmax⟩
        · exact ⟨s, hs, s, hs, hmin, hmax⟩

end Samples

/-- What a history knows of the list of all samples: how many there are, the ends of their range, and
the last ones. -/
structure History.Summarizes (h : History) (tailWindow : ℕ) (l : List Sample) : Prop where
  capacity_eq : h.capacity = max tailWindow 3
  count_eq : h.count = l.length
  low_eq : h.low = Samples.lowest l
  high_eq : h.high = Samples.highest l
  tail_eq : h.tail = l.reverse.take h.capacity

namespace History

variable {h : History} {tailWindow : ℕ} {l : List Sample}

theorem summarizes_start (tailWindow : ℕ) : (start tailWindow).Summarizes tailWindow [] :=
  ⟨rfl, rfl, rfl, rfl, rfl⟩

namespace Summarizes

theorem three_le_capacity (hl : h.Summarizes tailWindow l) : 3 ≤ h.capacity :=
  hl.capacity_eq ▸ le_max_right _ _

theorem take_recent (hl : h.Summarizes tailWindow l) {k : ℕ} (hk : k ≤ h.capacity) :
    h.recent.take k = l.reverse.take k := by
  have htake := congrArg (List.take k) hl.tail_eq
  rwa [tail, List.take_take, List.take_take, min_eq_left hk] at htake

theorem latest?_eq (hl : h.Summarizes tailWindow l) : h.latest? = l.getLast? := by
  have hcap := hl.three_le_capacity
  have htake := congrArg List.head? (hl.take_recent (by omega : 1 ≤ h.capacity))
  rwa [List.head?_take, List.head?_take, if_neg one_ne_zero, if_neg one_ne_zero,
    List.head?_reverse] at htake

theorem push (hl : h.Summarizes tailWindow l) (s : Sample) :
    (h.push s).Summarizes tailWindow (l ++ [s]) where
  capacity_eq := hl.capacity_eq
  count_eq := by rw [count_push, hl.count_eq, List.length_append, List.length_singleton]
  low_eq := by
    rw [Samples.lowest, List.foldl_concat]
    exact congrArg (Binary64.minimum · s.y) hl.low_eq
  high_eq := by
    rw [Samples.highest, List.foldl_concat]
    exact congrArg (Binary64.maximum · s.y) hl.high_eq
  tail_eq := by
    have hcap := hl.three_le_capacity
    obtain ⟨k, hk⟩ : ∃ k, h.capacity = k + 1 := ⟨h.capacity - 1, by omega⟩
    rw [tail_push, capacity_push, List.reverse_append, List.reverse_singleton, hk]
    exact congrArg (s :: ·) (hl.take_recent (by omega))

end Summarizes

end History

theorem Scan.summarizes_ofSamples (detector : Detector σ) (tol : Tolerances) (l : List Sample) :
    (State.ofSamples detector tol l).history.Summarizes tol.tailWindow l := by
  induction l using List.reverseRecOn with
  | nil => exact History.summarizes_start tol.tailWindow
  | append_singleton l s ih =>
      rw [State.ofSamples_concat]
      exact ih.push s

end CurveSearch
