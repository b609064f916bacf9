import CurveSearch.Proofs.Samples

/-!
# Flat graphs

Two rules of the search take numbers that differ by less than the tolerance as equal: the detector
of extrema, which asks whether a sample is above another one *plus* the tolerance, and the verdict,
which asks whether the highest sample *less* the lowest one is below the tolerance. Both are rounded,
and still they agree: where the verdict says flat the detector has seen nothing.
-/

namespace CurveSearch

open Grid

/-! ## Two ways to compare with a tolerance -/

namespace Grid

variable {a b c d eps : Float}

theorem position_sub_lt (ha : a.isFinite) (hb : b.isFinite) (h : b - a < eps) :
    position b - position a < position eps := by
  obtain ⟨-, -, hlt⟩ := lt_iff.mp h
  rw [(isNearest_sub hb ha).position_eq] at hlt
  by_contra hle
  have hmono := nearest_mono (not_lt.mp hle)
  rw [nearest_position] at hmono
  exact hlt.not_ge hmono

theorem not_add_lt (ha : a.isFinite) (heps : 0 ≤ eps)
    (h : position b - position a ≤ position eps) : ¬ a + eps < b := by
  intro hlt
  obtain ⟨-, -, hlt⟩ := lt_iff.mp hlt
  rcases (add_nonneg_cases ha heps).2 with ⟨-, hsum⟩ | ⟨-, hsum⟩
  · rw [hsum] at hlt
    have hle := le_nearest_of_le (onGrid_position b) (abs_position_le b) (by linarith :
      position b ≤ position a + position eps)
    exact hlt.not_ge hle
  · rw [hsum] at hlt
    exact hlt.not_ge (abs_le.mp (abs_position_le b)).2

theorem sub_le_sub_of_finite (ha : a.isFinite) (hb : b.isFinite) (hc : c.isFinite)
    (hd : d.isFinite) (hbd : b ≤ d) (hca : c ≤ a) : b - a ≤ d - c := by
  have hsub := isNearest_sub hb ha
  have hsub' := isNearest_sub hd hc
  refine le_iff.mpr ⟨hsub.isNaN_eq, hsub'.isNaN_eq, ?_⟩
  rw [hsub.position_eq, hsub'.position_eq]
  exact nearest_mono (sub_le_sub (le_iff.mp hbd).2.2 (le_iff.mp hca).2.2)

end Grid

/-! ## Flat lists of samples -/

/-- Whether the largest value of a list of samples less the smallest one, as computed, is below a
tolerance. -/
def IsFlat (eps : Float) (l : List Sample) : Prop :=
  ∃ lo ∈ l, ∃ hi ∈ l, (∀ s ∈ l, Between lo.y hi.y s.y) ∧ hi.y - lo.y < eps

namespace IsFlat

variable {kind : Extremum} {eps : Float} {l : List Sample} {a b : Sample}

theorem sub_lt (h : IsFlat eps l) (hfin : ∀ s ∈ l, s.y.isFinite) (ha : a ∈ l) (hb : b ∈ l) :
    b.y - a.y < eps := by
  obtain ⟨lo, hlo, hi, hhi, hbetween, hlt⟩ := h
  exact Grid.lt_of_le_of_lt (sub_le_sub_of_finite (hfin a ha) (hfin b hb) (hfin lo hlo)
    (hfin hi hhi) (hbetween b hb).2 (hbetween a ha).1) hlt

theorem eps_nonneg (h : IsFlat eps l) (hfin : ∀ s ∈ l, s.y.isFinite) : 0 ≤ eps := by
  have ⟨lo, hlo, _⟩ := h
  have hlt := h.sub_lt hfin hlo hlo
  have hpos := position_sub_lt (hfin lo hlo) (hfin lo hlo) hlt
  rw [sub_self] at hpos
  exact le_iff.mpr ⟨rfl, (lt_iff.mp hlt).2.1, by rw [position_zero]; exact hpos.le⟩

theorem not_rises (h : IsFlat eps l) (hfin : ∀ s ∈ l, s.y.isFinite) (ha : a ∈ l) (hb : b ∈ l) :
    ¬ kind.Rises eps a b := by
  have heps := h.eps_nonneg hfin
  rw [Extremum.rises_iff (hfin a ha) heps]
  apply not_add_lt (kind.isFinite_height (hfin a ha)) heps
  cases kind with
  | maximum => exact (position_sub_lt (hfin a ha) (hfin b hb) (h.sub_lt hfin ha hb)).le
  | minimum =>
      have hlt := position_sub_lt (hfin b hb) (hfin a ha) (h.sub_lt hfin hb ha)
      simp only [Extremum.height, position_neg]
      linarith

theorem answer_eq_none {tol : Tolerances} (h : IsFlat tol.eps l)
    (hfin : ∀ s ∈ l, s.y.isFinite) :
    ∀ j < l.length, (Detector.turn kind).answer tol (stream l) j = none := by
  rw [Detector.answer_eq_none_iff (h.eps_nonneg hfin) (forall_stream hfin)]
  rintro j hj ⟨m, hm, ⟨i, hi, hrises⟩, -⟩
  rw [stream_eq_getElem (by omega), stream_eq_getElem (by omega)] at hrises
  exact h.not_rises hfin (List.getElem_mem _) (List.getElem_mem _) hrises

theorem verdict_eq {σ : Type} {detector : Detector σ} {tol : Tolerances} {last : Sample}
    (h : IsFlat tol.eps l) (hfin : ∀ s ∈ l, s.y.isFinite) (htwo : 2 ≤ l.length)
    (hlast : l.getLast? = some last) :
    Verdict.ofHistory (Scan.State.ofSamples detector tol l).history tol = .flat last.y := by
  have hne : l ≠ [] := List.ne_nil_of_length_pos (by omega)
  have hl := Scan.summarizes_ofSamples detector tol l
  obtain ⟨a, ha, b, hb, hlow, hhigh⟩ := Samples.exists_range hne hfin
  have hspread : (Scan.State.ofSamples detector tol l).history.spread < tol.eps := by
    rw [History.spread, hl.low_eq, hl.high_eq, hlow, hhigh]
    exact h.sub_lt hfin ha hb
  rw [Verdict.ofHistory, hl.latest?_eq, hlast, hl.count_eq]
  simp only
  rw [if_neg (by omega), if_pos hspread]

end IsFlat

/-! ## Scans of flat graphs -/

/-- Whether a scan that finds nothing visits the first `n` cursors of a window and no other one. -/
structure Window.EndsAfter (w : Window) (n : ℕ) : Prop where
  visits : ∀ i, 1 ≤ i → i ≤ n → w.Visits i
  ends : ¬ w.Visits (n + 1)

namespace Scan

variable {σ : Type} {detector : Detector σ} {f : Graph} {w : Window} {tol : Tolerances} {i n : ℕ}
  {state : State σ}

theorem Reached.le_of_endsAfter (h : Reached detector f w tol i state) (hend : w.EndsAfter n) :
    i ≤ n + 1 := by
  induction h with
  | start => omega
  | @step i _ _ _ hi _ ih =>
      have hne : i ≠ n + 1 := by
        rintro rfl
        exact hend.ends hi
      omega

theorem exhausted_of_endsAfter {history : History} (hend : w.EndsAfter n)
    (h : scan detector f w tol = .exhausted history) :
    history = (State.ofSamples detector tol (w.samples f n)).history := by
  rcases Reached.ends (.start : Reached detector f w tol 1 _) with
    ⟨j, state, q, -, -, -, hscan⟩ | ⟨j, state, hreached, hj, hscan⟩
  · rw [hscan] at h
    exact nomatch h
  · obtain rfl : j = n + 1 := by
      have hle := hreached.le_of_endsAfter hend
      by_contra hne
      exact hj (hend.visits j hreached.one_le (by omega))
    rw [hscan] at h
    cases h
    rw [hreached.eq_ofSamples]
    rfl

end Scan

theorem Graph.FiniteValued.isFinite_of_mem_samples {f : Graph} {w : Window} {n : ℕ}
    (hf : f.FiniteValued) : ∀ s ∈ w.samples f n, s.y.isFinite := by
  intro s hs
  obtain ⟨-, -, -, -, hof⟩ := Window.mem_samples_iff.mp hs
  exact hf s.x s.y hof

namespace Search

open Detector

/-- A search for an extremum of a graph whose samples are flat finds none and answers the value of
the last sample. All the way the detector proposes nothing. -/
theorem extremum_of_isFlat (kind : Extremum) {f : Graph} {w : Window} {tol : Tolerances} {n : ℕ}
    (hw : w.isValid) (hf : f.FiniteValued) (hend : w.EndsAfter n)
    (htwo : 2 ≤ (w.samples f n).length) (hflat : IsFlat tol.eps (w.samples f n)) :
    (∃ last, (w.samples f n).getLast? = some last ∧
      extremum kind f w tol = .unlocated last.y) ∧
    ∀ i state y, Scan.Reached (turn kind) f w tol i state → w.Visits i →
      f (w.cursor i) = some y → (state.detected (turn kind) tol (w.cursor i) y).1 = none := by
  have hfin : ∀ s ∈ w.samples f n, s.y.isFinite := hf.isFinite_of_mem_samples
  have hsilent : ∀ i state y, Scan.Reached (turn kind) f w tol i state → w.Visits i →
      f (w.cursor i) = some y → (state.detected (turn kind) tol (w.cursor i) y).1 = none := by
    intro i state y hreached hi hy
    obtain ⟨m, rfl⟩ : ∃ m, i = m + 1 := ⟨i - 1, by have := hreached.one_le; omega⟩
    have hm : m + 1 ≤ n := by
      have hle := hreached.le_of_endsAfter hend
      have hne : m + 1 ≠ n + 1 := fun heq ↦ hend.ends (heq ▸ hi)
      omega
    have hprefix := Window.samples_prefix (w := w) (f := f) hm
    rw [(hreached.detected_eq_answer hy hprefix).2]
    apply hflat.answer_eq_none hfin
    rw [Window.samples_succ_of_some hy] at hprefix
    have hlength := hprefix.length_le
    rw [List.length_append, List.length_singleton] at hlength
    omega
  refine ⟨?_, hsilent⟩
  obtain ⟨last, hlast⟩ : ∃ last, (w.samples f n).getLast? = some last :=
    Option.ne_none_iff_exists'.mp fun h ↦ by
      rw [List.getLast?_eq_none_iff] at h
      rw [h] at htwo
      exact absurd htwo (by decide)
  refine ⟨last, hlast, ?_⟩
  cases hscan : scan (turn kind) f w tol with
  | found p =>
      -- A point is found only where the detector proposes something.
      obtain ⟨i, state, hreached, hi, hvisit⟩ := Scan.scan_found hscan
      rcases Scan.visit_cases (turn kind) f w tol state (w.cursor i) with
        ⟨-, heq⟩ | ⟨y, hy, ⟨c, hc, -⟩ | heq⟩
      · exact nomatch heq.symm.trans hvisit
      · exact nomatch (hsilent i state y hreached hi hy).symm.trans hc
      · exact nomatch heq.symm.trans hvisit
  | exhausted history =>
      unfold extremum
      rw [if_pos hw, hscan, Scan.exhausted_of_endsAfter hend hscan]
      simp only
      rw [hflat.verdict_eq hfin htwo hlast]
      rfl

end Search

/-! ## A flat graph with noise -/

/-- The graph with one value, but for rounding noise over two and a gap over three. -/
def Graph.noisy : Graph := fun x ↦
  if x == 3 then none else some (if x == 2 then 1.0000000000000002 else 1)

theorem Graph.finiteValued_noisy : noisy.FiniteValued := by
  intro x y hy
  unfold noisy at hy
  split_ifs at hy <;> cases hy <;> rfl

def Window.toFour : Window := ⟨0, 1, 4⟩

namespace Window

theorem endsAfter_toFour : toFour.EndsAfter 4 where
  visits := by
    intro i hone hfour
    interval_cases i <;> exact ⟨by norm_num, by decide +kernel⟩
  ends := fun h ↦ h.2 (by decide +kernel)

theorem samples_noisy_toFour :
    toFour.samples .noisy 4 = [⟨1, 1⟩, ⟨2, 1.0000000000000002⟩, ⟨4, 1⟩] := by
  have h₁ : Graph.noisy (toFour.cursor 1) = some 1 := by decide +kernel
  have h₂ : Graph.noisy (toFour.cursor 2) = some 1.0000000000000002 := by decide +kernel
  have h₃ : Graph.noisy (toFour.cursor 3) = none := by decide +kernel
  have h₄ : Graph.noisy (toFour.cursor 4) = some 1 := by decide +kernel
  rw [samples_succ_of_some h₄, samples_succ_of_none h₃, samples_succ_of_some h₂,
    samples_succ_of_some h₁]
  rfl

end Window

namespace Search

/-- Neither the noise nor the gap is an extremum: the answer to both searches is the last value. -/
theorem extremum_noisy :
    (Window.toFour.isValid ∧ Graph.noisy.FiniteValued ∧ Window.toFour.EndsAfter 4 ∧
      2 ≤ (Window.toFour.samples .noisy 4).length ∧
      IsFlat ({} : Tolerances).eps (Window.toFour.samples .noisy 4)) ∧
    ∀ kind, extremum kind .noisy .toFour {} = .unlocated 1 := by
  have hflat : IsFlat ({} : Tolerances).eps (Window.toFour.samples .noisy 4) := by
    rw [Window.samples_noisy_toFour]
    refine ⟨⟨1, 1⟩, by simp, ⟨2, 1.0000000000000002⟩, by simp, fun s hs ↦ ?_, by decide +kernel⟩
    simp only [List.mem_cons, List.not_mem_nil, or_false] at hs
    rcases hs with rfl | rfl | rfl <;> exact ⟨by decide +kernel, by decide +kernel⟩
  have htwo : 2 ≤ (Window.toFour.samples .noisy 4).length := by
    rw [Window.samples_noisy_toFour]
    decide
  have hvalid : Window.toFour.isValid := by decide +kernel
  refine ⟨⟨hvalid, Graph.finiteValued_noisy, Window.endsAfter_toFour, htwo, hflat⟩, fun kind ↦ ?_⟩
  obtain ⟨⟨last, hlast, hresult⟩, -⟩ := extremum_of_isFlat kind hvalid Graph.finiteValued_noisy
    Window.endsAfter_toFour htwo hflat
  rw [Window.samples_noisy_toFour] at hlast
  cases hlast
  exact hresult

end Search

end CurveSearch
