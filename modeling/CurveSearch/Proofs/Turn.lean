import CurveSearch.Proofs.Crossing
import CurveSearch.Proofs.Reflection

/-!
# Turns of a stream of samples

The detector of extrema remembers a trough or a crest and nothing else of the samples that it has
been fed with. That is enough to see the first turn of any stream: a sample that is more than the
tolerance above an earlier one, and then one that is more than the tolerance below it. The trough is
the least sample so far, and the crest the highest of those that are above an earlier one.
-/

namespace CurveSearch

open Grid

/-! ## Rises -/

/-- Whether the second sample is better than the first one by more than a tolerance. -/
def Extremum.Rises : Extremum → Float → Sample → Sample → Prop
  | .maximum, eps, a, b => a.y + eps < b.y
  | .minimum, eps, a, b => b.y < a.y - eps

instance (kind : Extremum) (eps : Float) (a b : Sample) : Decidable (kind.Rises eps a b) := by
  cases kind <;> exact inferInstanceAs (Decidable (_ < _))

namespace Extremum

variable {kind : Extremum} {eps : Float} {a b c a' b' : Sample}

theorem height_opposite (kind : Extremum) (s : Sample) :
    kind.opposite.height s = -kind.height s := by
  cases kind with
  | maximum => rfl
  | minimum => exact (Grid.neg_neg s.y).symm

theorem isFinite_height (kind : Extremum) (h : a.y.isFinite) : (kind.height a).isFinite := by
  cases kind with
  | maximum => exact h
  | minimum => exact (isFinite_neg_float a.y).trans h

theorem not_height_lt_iff (ha : a.y.isFinite) (hb : b.y.isFinite) :
    ¬ kind.height a < kind.height b ↔ kind.height b ≤ kind.height a :=
  not_lt_iff (isNaN_of_isFinite (kind.isFinite_height ha))
    (isNaN_of_isFinite (kind.isFinite_height hb))

theorem rises_iff (ha : a.y.isFinite) (heps : 0 ≤ eps) :
    kind.Rises eps a b ↔ kind.height a + eps < kind.height b := by
  cases kind with
  | maximum => exact Iff.rfl
  | minimum => exact lt_sub_iff ha heps

theorem rises_opposite_iff (hb : b.y.isFinite) (heps : 0 ≤ eps) :
    kind.opposite.Rises eps b c ↔ kind.height c < kind.height b - eps := by
  rw [rises_iff hb heps, height_opposite, height_opposite,
    lt_sub_iff (kind.isFinite_height hb) heps]

theorem Rises.lt (ha : a.y.isFinite) (heps : 0 ≤ eps) (h : kind.Rises eps a b) :
    kind.height a < kind.height b :=
  Grid.lt_of_le_of_lt (le_add_of_nonneg (kind.isFinite_height ha) heps)
    ((rises_iff ha heps).mp h)

theorem Rises.mono (ha : a.y.isFinite) (ha' : a'.y.isFinite) (heps : 0 ≤ eps)
    (haa' : kind.height a' ≤ kind.height a) (hbb' : kind.height b ≤ kind.height b')
    (h : kind.Rises eps a b) : kind.Rises eps a' b' := by
  rw [rises_iff ha heps] at h
  rw [rises_iff ha' heps]
  exact Grid.lt_of_le_of_lt
    (add_le_add_of_nonneg (kind.isFinite_height ha') (kind.isFinite_height ha) heps haa')
    (Grid.lt_of_lt_of_le h hbb')

theorem Rises.lt_of_opposite (hb : b.y.isFinite) (heps : 0 ≤ eps)
    (h : kind.opposite.Rises eps b c) : kind.height c < kind.height b := by
  have hlt := h.lt hb heps
  rwa [height_opposite, height_opposite, Grid.neg_lt_neg_iff] at hlt

theorem Rises.mono_of_opposite (hb : b.y.isFinite) (hb' : b'.y.isFinite) (heps : 0 ≤ eps)
    (hbb' : kind.height b ≤ kind.height b') (hc : c.y.isFinite)
    (h : kind.opposite.Rises eps b c) : kind.opposite.Rises eps b' c := by
  refine h.mono hb hb' heps ?_
    (Grid.le_refl (isNaN_of_isFinite (kind.opposite.isFinite_height hc)))
  rwa [height_opposite, height_opposite, Grid.neg_le_neg_iff]

end Extremum

/-! ## Turns -/

/-- Whether a sample of a stream has risen above an earlier one. -/
def Risen (kind : Extremum) (eps : Float) (s : ℕ → Sample) (j : ℕ) : Prop :=
  ∃ i < j, kind.Rises eps (s i) (s j)

/-- Whether the stream has fallen from an earlier sample that had risen. -/
def Turns (kind : Extremum) (eps : Float) (s : ℕ → Sample) (k : ℕ) : Prop :=
  ∃ j < k, Risen kind eps s j ∧ kind.opposite.Rises eps (s j) (s k)

/-- Whether a sample is the highest one, and the earliest of these, among those of the first `n`
samples that have risen. -/
structure IsCrest (kind : Extremum) (eps : Float) (s : ℕ → Sample) (n m : ℕ) : Prop where
  lt : m < n
  risen : Risen kind eps s m
  highest : ∀ j < n, Risen kind eps s j → kind.height (s j) ≤ kind.height (s m)
  earliest : ∀ j < m, Risen kind eps s j → kind.height (s j) < kind.height (s m)

section Streams

variable {kind : Extremum} {eps : Float} {s : ℕ → Sample} {i j k m n : ℕ}

theorem Risen.pos (h : Risen kind eps s j) : 0 < j := by
  obtain ⟨i, hi, -⟩ := h
  omega

theorem Risen.of_le (hi : (s i).y.isFinite) (heps : 0 ≤ eps) (hij : i < j)
    (hrise : kind.Rises eps (s i) (s m)) (hle : kind.height (s m) ≤ kind.height (s j)) :
    Risen kind eps s j :=
  ⟨i, hij, hrise.mono hi hi heps
    (Grid.le_refl (isNaN_of_isFinite (kind.isFinite_height hi))) hle⟩

theorem risen_iff_of_least (heps : 0 ≤ eps) (hs : ∀ l ≤ n, (s l).y.isFinite) (hi : i < n)
    (hleast : ∀ j < n, kind.height (s i) ≤ kind.height (s j)) :
    Risen kind eps s n ↔ kind.Rises eps (s i) (s n) := by
  constructor
  · rintro ⟨l, hl, habove⟩
    exact habove.mono (hs l hl.le) (hs i hi.le) heps (hleast l hl)
      (Grid.le_refl (isNaN_of_isFinite (kind.isFinite_height (hs n le_rfl))))
  · exact fun habove ↦ ⟨i, hi, habove⟩

/-- Right before the crest the stream is lower. -/
theorem IsCrest.lt_of_before (h : IsCrest kind eps s n (m + 1)) (heps : 0 ≤ eps)
    (hs : ∀ i ≤ m + 1, (s i).y.isFinite) : kind.height (s m) < kind.height (s (m + 1)) := by
  obtain ⟨i, hi, hrise⟩ := h.risen
  by_contra hnot
  rw [Extremum.not_height_lt_iff (hs m (by omega)) (hs (m + 1) le_rfl)] at hnot
  rcases Nat.lt_succ_iff_lt_or_eq.mp hi with him | rfl
  · have hbefore := Risen.of_le (hs i (by omega)) heps him hrise hnot
    exact (Extremum.not_height_lt_iff (hs m (by omega)) (hs (m + 1) le_rfl)).mpr hnot
      (h.earliest m (Nat.lt_succ_self m) hbefore)
  · exact (Extremum.not_height_lt_iff (hs i (by omega)) (hs (i + 1) le_rfl)).mpr hnot
      (hrise.lt (hs i (by omega)) heps)

theorem IsCrest.turns_iff (h : IsCrest kind eps s n m) (heps : 0 ≤ eps)
    (hs : ∀ i ≤ n, (s i).y.isFinite) :
    Turns kind eps s n ↔ kind.opposite.Rises eps (s m) (s n) := by
  constructor
  · rintro ⟨j, hj, hrisen, hfall⟩
    exact hfall.mono_of_opposite (hs j hj.le) (hs m h.lt.le) heps (h.highest j hj hrisen)
      (hs n le_rfl)
  · exact fun hfall ↦ ⟨m, h.lt, h.risen, hfall⟩

/-- The crest stays where it is while nothing is higher. -/
theorem IsCrest.succ (h : IsCrest kind eps s n m)
    (hle : kind.height (s n) ≤ kind.height (s m)) : IsCrest kind eps s (n + 1) m where
  lt := h.lt.trans (Nat.lt_succ_self n)
  risen := h.risen
  highest := Nat.forall_lt_succ_right.mpr ⟨h.highest, fun _ ↦ hle⟩
  earliest := h.earliest

/-- A sample that has risen is the crest if all that had risen before are lower. -/
theorem isCrest_succ_self (hn : (s n).y.isFinite) (hrisen : Risen kind eps s n)
    (hlower : ∀ j < n, Risen kind eps s j → kind.height (s j) < kind.height (s n)) :
    IsCrest kind eps s (n + 1) n where
  lt := Nat.lt_succ_self n
  risen := hrisen
  highest := Nat.forall_lt_succ_right.mpr
    ⟨fun j hj h ↦ Grid.le_of_lt (hlower j hj h),
      fun _ ↦ Grid.le_refl (isNaN_of_isFinite (kind.isFinite_height hn))⟩
  earliest := hlower

end Streams

/-! ## What a phase says -/

namespace Detector

variable {kind : Extremum} {tol : Tolerances} {s : ℕ → Sample} {n k : ℕ} {phase : Phase}

/-- Whether a phase says what is to be known of the first `n` samples of a stream that has not
turned: none of them has risen and the trough is the least one, or the crest is there with the
sample before it. -/
inductive Knows (kind : Extremum) (eps : Float) (s : ℕ → Sample) : ℕ → Phase → Prop
  | fresh : Knows kind eps s 0 .fresh
  | low {n i : ℕ} : i < n → (∀ j < n, kind.height (s i) ≤ kind.height (s j)) →
      (∀ j < n, ¬ Risen kind eps s j) → Knows kind eps s n (.low (s i))
  | high {n m : ℕ} : IsCrest kind eps s n (m + 1) → Knows kind eps s n (.high (s m) (s (m + 1)))

/-- The samples that the detector sees when it is fed with the next one: that one, and the one
before it if there is one. -/
def Sees (s : ℕ → Sample) : ℕ → List Sample → Prop
  | 0, recent => recent = [s 0]
  | n + 1, recent => ∃ rest, recent = s (n + 1) :: s n :: rest

theorem Sees.exists_eq_cons {recent : List Sample} (h : Sees s n recent) :
    ∃ rest, recent = s n :: rest := by
  cases n with
  | zero => exact ⟨[], h⟩
  | succ n =>
      obtain ⟨rest, hrest⟩ := h
      exact ⟨s n :: rest, hrest⟩

theorem seekRise_self {recent : List Sample} {cur : Sample} (heps : 0 ≤ tol.eps)
    (hcur : cur.y.isFinite) : seekRise kind tol recent cur cur = .low cur := by
  rw [seekRise, if_neg fun hlt ↦ Grid.lt_asymm hlt hlt, if_neg fun hlt ↦ ?_]
  have hrise := ((Extremum.rises_iff hcur heps).mpr hlt).lt hcur heps
  exact Grid.lt_asymm hrise hrise

theorem knows_low_one (kind : Extremum) (eps : Float) (hs : (s 0).y.isFinite) :
    Knows kind eps s 1 (.low (s 0)) := by
  refine .low Nat.zero_lt_one (fun j hj ↦ ?_) fun j hj hrisen ↦ ?_
  · obtain rfl : j = 0 := by omega
    exact Grid.le_refl (isNaN_of_isFinite (kind.isFinite_height hs))
  · exact absurd hrisen.pos (by omega)

theorem Knows.seekRise {i : ℕ} {rest : List Sample} (heps : 0 ≤ tol.eps)
    (hs : ∀ i ≤ n + 1, (s i).y.isFinite) (hi : i < n + 1)
    (hleast : ∀ j < n + 1, kind.height (s i) ≤ kind.height (s j))
    (hnone : ∀ j < n + 1, ¬ Risen kind tol.eps s j) :
    Knows kind tol.eps s (n + 2)
      (Detector.seekRise kind tol (s (n + 1) :: s n :: rest) (s (n + 1)) (s i)) := by
  have hcur := hs (n + 1) le_rfl
  have htrough := hs i hi.le
  have hrisen := risen_iff_of_least heps hs hi hleast
  unfold Detector.seekRise
  split_ifs with hlower hrise
  · have hnot : ¬ Risen kind tol.eps s (n + 1) := fun h ↦
      Grid.lt_asymm ((hrisen.mp h).lt htrough heps) hlower
    exact .low (Nat.lt_succ_self (n + 1))
      (Nat.forall_lt_succ_right.mpr
        ⟨fun j hj ↦ Grid.le_trans (Grid.le_of_lt hlower) (hleast j hj),
          Grid.le_refl (isNaN_of_isFinite (kind.isFinite_height hcur))⟩)
      (Nat.forall_lt_succ_right.mpr ⟨hnone, hnot⟩)
  · rw [← Extremum.rises_iff htrough heps] at hrise
    exact .high (isCrest_succ_self hcur (hrisen.mpr hrise) fun j hj h ↦ absurd h (hnone j hj))
  · rw [← Extremum.rises_iff htrough heps] at hrise
    exact .low (hi.trans (Nat.lt_succ_self (n + 1)))
      (Nat.forall_lt_succ_right.mpr
        ⟨hleast, (Extremum.not_height_lt_iff hcur htrough).mp hlower⟩)
      (Nat.forall_lt_succ_right.mpr ⟨hnone, mt hrisen.mp hrise⟩)

/-- What the detector says to the next sample: nothing, if the stream does not turn there, and else
the crest with the sample before it and the new one. -/
theorem Knows.turnCandidate? {recent : List Sample} (heps : 0 ≤ tol.eps)
    (hs : ∀ i ≤ n, (s i).y.isFinite) (hrecent : Sees s n recent)
    (h : Knows kind tol.eps s n phase) :
    (¬ Turns kind tol.eps s n ∧ (Detector.turnCandidate? kind tol recent phase).1 = none ∧
      Knows kind tol.eps s (n + 1) (Detector.turnCandidate? kind tol recent phase).2) ∨
    (Turns kind tol.eps s n ∧ ∃ m, IsCrest kind tol.eps s n (m + 1) ∧
      (Detector.turnCandidate? kind tol recent phase).1 =
        some (.peak ⟨s m, s n⟩ (s (m + 1)) kind.goal)) := by
  cases n with
  | zero =>
      obtain rfl : recent = [s 0] := hrecent
      cases h with
      | fresh =>
          refine .inl ⟨fun ⟨j, hj, _⟩ ↦ absurd hj (Nat.not_lt_zero j), rfl, ?_⟩
          change Knows kind tol.eps s 1 (Detector.seekRise kind tol [s 0] (s 0) (s 0))
          rw [seekRise_self heps (hs 0 le_rfl)]
          exact knows_low_one kind tol.eps (hs 0 le_rfl)
      | low hi => exact absurd hi (Nat.not_lt_zero _)
      | high hcrest => exact absurd hcrest.lt (Nat.not_lt_zero _)
  | succ n =>
      obtain ⟨rest, rfl⟩ := hrecent
      have hcur := hs (n + 1) le_rfl
      cases h with
      | low hi hleast hnone =>
          refine .inl ⟨fun ⟨j, hj, hrisen, _⟩ ↦ hnone j hj hrisen, rfl, ?_⟩
          exact Knows.seekRise heps hs hi hleast hnone
      | @high _ m hcrest =>
          have hbest := hs (m + 1) hcrest.lt.le
          have hturns := hcrest.turns_iff heps hs
          rw [Extremum.rises_opposite_iff hbest heps] at hturns
          simp only [Detector.turnCandidate?]
          split_ifs with hhigher hfall
          · -- The new sample is the crest, for what is above the crest has risen.
            refine .inl ⟨fun hturn ↦ ?_, rfl, ?_⟩
            · have hlower := ((Extremum.rises_opposite_iff hbest heps).mpr
                (hturns.mp hturn)).lt_of_opposite hbest heps
              exact Grid.lt_asymm hlower hhigher
            · obtain ⟨l, hl, hrise⟩ := hcrest.risen
              have hrisen := Risen.of_le (hs l (by have := hcrest.lt; omega)) heps
                (hl.trans hcrest.lt) hrise (Grid.le_of_lt hhigher)
              exact .high (isCrest_succ_self hcur hrisen fun j hj h ↦
                Grid.lt_of_le_of_lt (hcrest.highest j hj h) hhigher)
          · exact .inr ⟨hturns.mpr hfall, m, hcrest, rfl⟩
          · exact .inl ⟨fun hturn ↦ hfall (hturns.mp hturn), rfl,
              .high (hcrest.succ ((Extremum.not_height_lt_iff hbest hcur).mp hhigher))⟩

/-! ## Feeding a detector -/

section Feeding

variable {σ : Type}

def fed (detector : Detector σ) (tol : Tolerances) (s : ℕ → Sample) : ℕ → Scan.State σ
  | 0 => .start detector tol
  | n + 1 =>
      let state := fed detector tol s n
      ⟨state.pushed (s n).x (s n).y, (state.detected detector tol (s n).x (s n).y).2⟩

def answer (detector : Detector σ) (tol : Tolerances) (s : ℕ → Sample) (n : ℕ) :
    Option Candidate :=
  ((fed detector tol s n).detected detector tol (s n).x (s n).y).1

theorem three_le_capacity_fed (detector : Detector σ) (tol : Tolerances) (s : ℕ → Sample)
    (n : ℕ) :
    3 ≤ (fed detector tol s n).history.capacity := by
  induction n with
  | zero => exact le_max_right _ _
  | succ n ih => exact ih

theorem sees_fed (detector : Detector σ) (tol : Tolerances) (s : ℕ → Sample) (n : ℕ) :
    Sees s n (fed detector tol s (n + 1)).history.recent := by
  have hcap := three_le_capacity_fed detector tol s
  cases n with
  | zero => exact History.recent_push_of_nil ((by norm_num : 1 ≤ 3).trans (hcap 0)) rfl
  | succ n =>
      obtain ⟨rest, hrest⟩ := History.recent_push_eq_cons (s := s n)
        (by have := hcap n; omega : 1 ≤ (fed detector tol s n).history.capacity)
      exact History.recent_push_eq_cons_cons (by have := hcap (n + 1); omega) hrest

end Feeding

theorem answer_turn_eq (kind : Extremum) (tol : Tolerances) (s : ℕ → Sample) (n : ℕ) :
    (turn kind).answer tol s n =
      (turnCandidate? kind tol (fed (turn kind) tol s (n + 1)).history.recent
        (fed (turn kind) tol s n).detector).1 := rfl

theorem detector_fed_succ (kind : Extremum) (tol : Tolerances) (s : ℕ → Sample) (n : ℕ) :
    (fed (turn kind) tol s (n + 1)).detector =
      (turnCandidate? kind tol (fed (turn kind) tol s (n + 1)).history.recent
        (fed (turn kind) tol s n).detector).2 := rfl

theorem knows_fed (heps : 0 ≤ tol.eps) (hs : ∀ i < n, (s i).y.isFinite)
    (hnone : ∀ j < n, (turn kind).answer tol s j = none) :
    Knows kind tol.eps s n (fed (turn kind) tol s n).detector := by
  induction n with
  | zero => exact .fresh
  | succ n ih =>
      obtain ⟨hbefore, hlast⟩ := Nat.forall_lt_succ_right.mp hnone
      have hknows := ih (fun i hi ↦ hs i (by omega)) hbefore
      rcases hknows.turnCandidate? heps (fun i hi ↦ hs i (by omega))
          (sees_fed (turn kind) tol s n) with
        ⟨-, -, hnext⟩ | ⟨-, m, -, hpeak⟩
      · exact hnext
      · cases hlast.symm.trans hpeak

theorem answer_eq_none_iff_of_silent (heps : 0 ≤ tol.eps) (hs : ∀ i ≤ k, (s i).y.isFinite)
    (hnone : ∀ j < k, (turn kind).answer tol s j = none) :
    (turn kind).answer tol s k = none ↔ ¬ Turns kind tol.eps s k := by
  have hknows := knows_fed heps (fun i hi ↦ hs i hi.le) hnone
  rcases hknows.turnCandidate? heps hs (sees_fed (turn kind) tol s k) with
    ⟨hturn, hsilent, -⟩ | ⟨hturn, m, -, hpeak⟩
  · exact iff_of_true hsilent hturn
  · refine iff_of_false (fun hsilent ↦ ?_) (not_not_intro hturn)
    cases hsilent.symm.trans hpeak

theorem answer_eq_none_iff (heps : 0 ≤ tol.eps) (hs : ∀ i < n, (s i).y.isFinite) :
    (∀ j < n, (turn kind).answer tol s j = none) ↔ ∀ j < n, ¬ Turns kind tol.eps s j := by
  induction n with
  | zero => simp only [Nat.not_lt_zero, false_implies, implies_true]
  | succ n ih =>
      rw [Nat.forall_lt_succ_right, Nat.forall_lt_succ_right, ← ih fun i hi ↦ hs i (by omega)]
      exact and_congr_right
        (answer_eq_none_iff_of_silent heps fun i hi ↦ hs i (Nat.lt_succ_iff.mpr hi))

theorem isLeast_answer_iff (heps : 0 ≤ tol.eps) (hs : ∀ i ≤ k, (s i).y.isFinite) :
    IsLeast {j | ((turn kind).answer tol s j).isSome} k ↔
      IsLeast {j | Turns kind tol.eps s j} k := by
  have hnone : (∀ j < k, (turn kind).answer tol s j = none) ↔ ∀ j < k, ¬ Turns kind tol.eps s j :=
    answer_eq_none_iff heps fun i hi ↦ hs i hi.le
  have hleast (p : ℕ → Prop) : IsLeast {j | p j} k ↔ (∀ j < k, ¬ p j) ∧ p k := by
    rw [and_comm]
    exact and_congr_right' ⟨fun h j hj hp ↦ hj.not_ge (h hp),
      fun h j hp ↦ not_lt.mp fun hj ↦ h j hj hp⟩
  rw [hleast, hleast]
  simp only [Bool.not_eq_true, Option.isSome_eq_false_iff, Option.isNone_iff_eq_none]
  rw [← hnone]
  refine and_congr_right fun hsilent ↦ ?_
  rw [← not_iff_not, ← answer_eq_none_iff_of_silent heps hs hsilent, Bool.not_eq_true,
    Option.isSome_eq_false_iff, Option.isNone_iff_eq_none]

/-! ## After an answer -/

theorem turnCandidate?_congr {recent recent' : List Sample} (h : Sees s (n + 1) recent)
    (h' : Sees s (n + 1) recent') :
    turnCandidate? kind tol recent phase = turnCandidate? kind tol recent' phase := by
  obtain ⟨rest, rfl⟩ := h
  obtain ⟨rest', rfl⟩ := h'
  cases phase <;> rfl

theorem detector_fed_of_isSome_answer (h : ((turn kind).answer tol s k).isSome) :
    (fed (turn kind) tol s (k + 1)).detector = .low (s k) := by
  obtain ⟨rest, hrecent⟩ := (sees_fed (turn kind) tol s k).exists_eq_cons
  rw [answer_turn_eq, hrecent] at h
  rw [detector_fed_succ, hrecent]
  -- Only the phase after a rise has an answer.
  cases hphase : (fed (turn kind) tol s k).detector with
  | fresh =>
      rw [hphase] at h
      cases h
  | low trough =>
      rw [hphase] at h
      cases h
  | high before best =>
      rw [hphase] at h
      simp only [turnCandidate?] at h ⊢
      split_ifs at h ⊢
      · cases h
      · rfl
      · cases h

/-- After an answer the detector goes on like a fresh one that is fed with the stream from there. -/
theorem answer_add (heps : 0 ≤ tol.eps) (hk : (s k).y.isFinite)
    (h : ((turn kind).answer tol s k).isSome) (n : ℕ) :
    (turn kind).answer tol s (k + (n + 1)) =
      (turn kind).answer tol (fun i ↦ s (k + i)) (n + 1) := by
  have hsees (n : ℕ) : Sees (fun i ↦ s (k + i)) (n + 1)
      (fed (turn kind) tol s (k + (n + 1) + 1)).history.recent :=
    sees_fed (turn kind) tol s (k + n + 1)
  have hdetector : (fed (turn kind) tol s (k + (n + 1))).detector =
      (fed (turn kind) tol (fun i ↦ s (k + i)) (n + 1)).detector := by
    induction n with
    | zero =>
        have hfirst : (fed (turn kind) tol (fun i ↦ s (k + i)) 1).history.recent = [s k] :=
          sees_fed (turn kind) tol _ 0
        rw [detector_fed_of_isSome_answer h, detector_fed_succ, hfirst]
        exact (seekRise_self heps hk).symm
    | succ n ih =>
        rw [← Nat.add_assoc k (n + 1) 1, detector_fed_succ, detector_fed_succ, ih]
        exact congrArg Prod.snd
          (turnCandidate?_congr (hsees n) (sees_fed (turn kind) tol _ (n + 1)))
  rw [answer_turn_eq, answer_turn_eq, hdetector]
  exact congrArg Prod.fst (turnCandidate?_congr (hsees n) (sees_fed (turn kind) tol _ (n + 1)))

/-! ## The meaning of the detector -/

/-- What the detector of extrema says to a stream. It is silent for as long as the stream does not
turn. Its first answer comes at the first turn: the crest, which is the earliest of the highest
samples that have risen, in a bracket from the sample before it, which is lower, to the sample that
has fallen. After an answer it goes on like a fresh detector that is fed from the last sample on. -/
theorem answer_turn (kind : Extremum) (tol : Tolerances) (s : ℕ → Sample) (k : ℕ)
    (heps : 0 ≤ tol.eps) (hs : ∀ i ≤ k, (s i).y.isFinite) :
    ((∀ j ≤ k, (turn kind).answer tol s j = none) ↔ ∀ j ≤ k, ¬ Turns kind tol.eps s j) ∧
    (IsLeast {j | ((turn kind).answer tol s j).isSome} k ↔
      IsLeast {j | Turns kind tol.eps s j} k) ∧
    (IsLeast {j | Turns kind tol.eps s j} k →
      ∃ m, IsCrest kind tol.eps s k (m + 1) ∧ kind.height (s m) < kind.height (s (m + 1)) ∧
        (turn kind).answer tol s k = some (.peak ⟨s m, s k⟩ (s (m + 1)) kind.goal)) ∧
    (((turn kind).answer tol s k).isSome → ∀ n, (turn kind).answer tol s (k + (n + 1)) =
      (turn kind).answer tol (fun i ↦ s (k + i)) (n + 1)) := by
  refine ⟨?_, isLeast_answer_iff heps hs, fun hleast ↦ ?_, fun hsome n ↦ ?_⟩
  · simp only [← Nat.lt_succ_iff]
    exact answer_eq_none_iff heps fun i hi ↦ hs i (Nat.lt_succ_iff.mp hi)
  · have hturns : ∀ j < k, ¬ Turns kind tol.eps s j := fun j hj hturn ↦ hj.not_ge (hleast.2 hturn)
    have hsilent := (answer_eq_none_iff heps fun i hi ↦ hs i hi.le).mpr hturns
    have hknows := knows_fed heps (fun i hi ↦ hs i hi.le) hsilent
    rcases hknows.turnCandidate? heps hs (sees_fed (turn kind) tol s k) with
      ⟨hturn, -⟩ | ⟨-, m, hcrest, hpeak⟩
    · exact absurd hleast.1 hturn
    · exact ⟨m, hcrest, hcrest.lt_of_before heps fun i hi ↦ hs i (hi.trans hcrest.lt.le), hpeak⟩
  · exact answer_add heps (hs k le_rfl) hsome n

def plateau (n : ℕ) : Sample :=
  ⟨(UInt64.ofNat n).toFloat, [0, 1, 1, 0.5].getD n 0⟩

instance (kind : Extremum) (eps : Float) (s : ℕ → Sample) (j : ℕ) :
    Decidable (Risen kind eps s j) :=
  inferInstanceAs (Decidable (∃ i < j, _))

instance (kind : Extremum) (eps : Float) (s : ℕ → Sample) (k : ℕ) :
    Decidable (Turns kind eps s k) :=
  inferInstanceAs (Decidable (∃ j < k, _))

/-- The first of the two highest samples is the crest. -/
theorem answer_turn_plateau :
    0 ≤ ({} : Tolerances).eps ∧ (∀ i ≤ 3, (plateau i).y.isFinite) ∧
      IsLeast {j | ((turn .maximum).answer {} plateau j).isSome} 3 ∧
      (turn .maximum).answer {} plateau 3 =
        some (.peak ⟨plateau 0, plateau 3⟩ (plateau 1) .maximize) := by
  have heps : 0 ≤ ({} : Tolerances).eps := by decide +kernel
  have hs : ∀ i ≤ 3, (plateau i).y.isFinite := by decide +kernel
  have hleast : IsLeast {j | Turns .maximum ({} : Tolerances).eps plateau j} 3 := by
    have hbefore : ∀ j < 3, ¬ Turns .maximum ({} : Tolerances).eps plateau j := by decide +kernel
    refine ⟨by decide +kernel, fun j hj ↦ ?_⟩
    by_contra hlt
    exact hbefore j (not_le.mp hlt) hj
  obtain ⟨-, hfirst, hpeak, -⟩ := answer_turn .maximum {} plateau 3 heps hs
  refine ⟨heps, hs, hfirst.mpr hleast, ?_⟩
  obtain ⟨m, hcrest, -, hanswer⟩ := hpeak hleast
  have hlt := hcrest.lt
  obtain rfl | rfl : m = 0 ∨ m = 1 := by omega
  · exact hanswer
  · -- The second one is not higher than the first.
    exact absurd (hcrest.earliest 1 (by norm_num) (by decide +kernel)) (by decide +kernel)

end Detector

end CurveSearch
