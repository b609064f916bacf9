import CurveSearch.Proofs.Flat

/-!
# Peaks among the samples of a scan

The first answer of the detector of extrema is the first turn of the stream. A scan may reject that
one, and others after it, and then the detector begins anew with its last sample. So every answer is
the first one to some part of the stream, and shows a peak in it: a sample that has risen, none
higher after it, and a fall at the end.
-/

namespace CurveSearch

open Grid

/-! ## Peaks of a stream -/

/-- Whether a stream shows a peak at the index `j + 1` when it has come to the index `k`: the sample
there has risen above an earlier one, none of the samples between the two is higher, and the last one
has fallen. -/
structure PeakAt (kind : Extremum) (eps : Float) (s : ℕ → Sample) (j k : ℕ) : Prop where
  lt : j + 1 < k
  risen : Risen kind eps s (j + 1)
  highest : ∀ i, j + 1 < i → i < k → kind.height (s i) ≤ kind.height (s (j + 1))
  fallen : kind.opposite.Rises eps (s (j + 1)) (s k)

section Streams

variable {kind : Extremum} {eps : Float} {s : ℕ → Sample} {j k m n : ℕ}

theorem IsCrest.peakAt (h : IsCrest kind eps s n (m + 1)) (heps : 0 ≤ eps)
    (hs : ∀ i ≤ n, (s i).y.isFinite) (hfall : kind.opposite.Rises eps (s (m + 1)) (s n)) :
    PeakAt kind eps s m n where
  lt := h.lt
  risen := h.risen
  highest i hi hin := by
    -- What is higher than the crest has risen above the same sample, and after the crest nothing
    -- that has risen is higher.
    obtain ⟨l, hl, hrise⟩ := h.risen
    have hcrest := hs (m + 1) h.lt.le
    by_contra hle
    rw [← Extremum.not_height_lt_iff hcrest (hs i hin.le), not_not] at hle
    have hrisen := Risen.of_le (hs l (hl.le.trans h.lt.le)) heps (hl.trans hi) hrise
      (Grid.le_of_lt hle)
    exact (Extremum.not_height_lt_iff hcrest (hs i hin.le)).mpr (h.highest i hin hrisen) hle
  fallen := hfall

theorem PeakAt.of_shift (h : PeakAt kind eps (fun i ↦ s (k + i)) j n) :
    PeakAt kind eps s (k + j) (k + n) where
  lt := by
    have := h.lt
    omega
  risen := by
    obtain ⟨i, hi, hrise⟩ := h.risen
    exact ⟨k + i, by omega, hrise⟩
  highest i hi hin := by
    obtain ⟨l, rfl⟩ : ∃ l, i = k + l := ⟨i - k, by omega⟩
    exact h.highest l (by omega) (by omega)
  fallen := h.fallen

end Streams

/-! ## What an answer shows -/

namespace Detector

variable {kind : Extremum} {tol : Tolerances} {s : ℕ → Sample} {k n : ℕ} {c : Candidate}

theorem sees_fed_add {m : ℕ} (h : m = 0 → k = 0) :
    Sees (fun i ↦ s (k + i)) m (fed (turn kind) tol s (k + m + 1)).history.recent := by
  cases m with
  | zero =>
      obtain rfl := h rfl
      exact sees_fed (turn kind) tol s 0
  | succ m => exact sees_fed (turn kind) tol s (k + m + 1)

theorem exists_knows_fed (kind : Extremum) (heps : 0 ≤ tol.eps) (hs : ∀ i < n, (s i).y.isFinite) :
    ∃ k m, k + m = n ∧ (m = 0 → k = 0) ∧
      Knows kind tol.eps (fun i ↦ s (k + i)) m (fed (turn kind) tol s n).detector := by
  induction n with
  | zero => exact ⟨0, 0, rfl, fun _ ↦ rfl, .fresh⟩
  | succ n ih =>
      obtain ⟨k, m, rfl, hfresh, hknows⟩ := ih fun i hi ↦ hs i (by omega)
      rcases hknows.turnCandidate? heps (fun i hi ↦ hs (k + i) (by omega))
          (sees_fed_add hfresh) with
        ⟨-, -, hnext⟩ | ⟨-, _, -, hpeak⟩
      · exact ⟨k, m + 1, rfl, fun hm ↦ absurd hm (Nat.succ_ne_zero m), hnext⟩
      · -- After the answer the stream begins anew with the last sample.
        refine ⟨k + m, 1, rfl, fun h ↦ absurd h Nat.one_ne_zero, ?_⟩
        have hsome : ((turn kind).answer tol s (k + m)).isSome := by
          rw [answer_turn_eq, hpeak]
          rfl
        rw [detector_fed_of_isSome_answer hsome]
        exact knows_low_one (s := fun i ↦ s (k + m + i)) kind tol.eps (hs (k + m) (by omega))

/-- Every answer of the detector of extrema, the first one or a later one, shows a peak. -/
theorem exists_peakAt_of_answer (heps : 0 ≤ tol.eps) (hs : ∀ i ≤ n, (s i).y.isFinite)
    (h : (turn kind).answer tol s n = some c) :
    ∃ j, PeakAt kind tol.eps s j n ∧ c = .peak ⟨s j, s n⟩ (s (j + 1)) kind.goal := by
  obtain ⟨k, m, rfl, hfresh, hknows⟩ :=
    exists_knows_fed kind heps fun i hi ↦ hs i (Nat.le_of_lt hi)
  have hshift : ∀ i ≤ m, (s (k + i)).y.isFinite := fun i hi ↦ hs (k + i) (by omega)
  rw [answer_turn_eq] at h
  rcases hknows.turnCandidate? heps hshift (sees_fed_add hfresh) with
    ⟨-, hsilent, -⟩ | ⟨hturns, j, hcrest, hpeak⟩
  · exact nomatch hsilent.symm.trans h
  · refine ⟨k + j, ?_, Option.some.inj (h.symm.trans hpeak)⟩
    exact (hcrest.peakAt heps hshift ((hcrest.turns_iff heps hshift).mp hturns)).of_shift

end Detector

end CurveSearch
