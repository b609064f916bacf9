import CurveSearch.Proofs.Binary64.Opposite
import CurveSearch.Proofs.Origin

/-!
# Samples that are zero

A sample that is exactly zero needs no refinement, so one may expect that a search which meets one
finds a root. There are two ways to lose it. A tolerance of zero passes the checks, but nothing is
below it; and a sample near the origin may be moved there, whatever the graph is at the origin.
-/

namespace CurveSearch

open Grid Detector

variable {f : Graph} {w : Window} {tol : Tolerances} {p : Point} {c m y : Float} {i : ℕ}

/-- Whether every scan of a window that arrives at a zero of its graph finds a root. -/
def Window.ReportsZeros (w : Window) (tol : Tolerances) : Prop :=
  ∀ (f : Graph) (i : ℕ) (state : Scan.State Unit) (y : Float), f.FiniteValued →
    Scan.Reached crossing f w tol i state → w.Visits i → f (w.cursor i) = some y → y == 0 →
      (Search.root f w tol).isFound

/-- Whether a point over an abscissa may be lost at the origin: it is moved there, and there are
values beyond the bound below which they are snapped to zero. -/
structure Origin.Hides (w : Window) (tol : Tolerances) (x : Float) : Prop where
  inWindow : inWindow w
  isNoise : isNoise (tol.noise w.step) x
  isFinite : (tol.noise w.step).isFinite

/-! ## Zeros that are reported -/

theorem Origin.not_displaces_of_not_hides (hf : f.FiniteValued) (h : ¬ Hides w tol p.abscissa) :
    ¬ Displaces f w tol p := by
  rintro ⟨hin, hnoise, z, hz, -, hlarge⟩
  refine h ⟨hin, hnoise, ?_⟩
  -- A bound that is not finite is above all values.
  obtain ⟨-, hnan, -, hpos⟩ := isNoise_iff.mp hnoise
  have hvalue := hf 0 z hz
  have hle : position (tol.noise w.step) ≤ |position z| := by
    rw [lt_iff, isNaN_abs, position_abs] at hlarge
    by_contra hlt
    exact hlarge ⟨isNaN_of_isFinite hvalue, hnan, not_le.mp hlt⟩
  rw [isFinite_iff, abs_of_pos ((abs_nonneg _).trans_lt hpos)]
  exact ⟨hnan, hle.trans_lt (abs_position_lt hvalue)⟩

theorem Search.isFound_of_zero_sample {state : Scan.State Unit} (hw : w.isValid)
    (htol : Configuration.fault? tol = none) (heps : 0 < tol.eps) (hf : f.FiniteValued)
    (h : Scan.Reached crossing f w tol i state) (hi : w.Visits i) (hy : f (w.cursor i) = some y)
    (hzero : y == 0) (hkept : ¬ Origin.Hides w tol (w.cursor i)) : (root f w tol).isFound := by
  obtain ⟨⟨-, hexact, -⟩, -⟩ := Configuration.fault?_eq_none.mp htol
  obtain ⟨hnan, hposition⟩ := beq_zero_iff.mp hzero
  have hsafe : ¬ Origin.Displaces f w tol ⟨w.cursor i, y⟩ :=
    Origin.not_displaces_of_not_hides hf hkept
  have haccept := (Origin.accepts_snap_iff (p := ⟨w.cursor i, y⟩)
    (abs_lt_of_position_eq_zero hnan hposition heps)).mpr hsafe
  have hvisit := Scan.visit_of_exact h.three_le_capacity hy
    (abs_le_of_position_eq_zero hnan hposition (Configuration.le_of_isNonnegative hexact)) haccept
  rw [root_eq_of_scan hw (h.scan_eq_found hi hvisit)]
  exact Origin.isFinite_abscissa_snap (Window.isFinite_cursor hw (hi.cursor_le hw))

/-! ## Zeros that are lost -/

def Graph.dip (c m : Float) : Graph := fun x ↦ some (if x == c then 0 else m)

namespace Graph

theorem finiteValued_dip (hm : m.isFinite) : (dip c m).FiniteValued := by
  intro x y hy
  rw [dip, Option.some.injEq] at hy
  rw [← hy]
  split_ifs
  · exact isFinite_zero
  · exact hm

theorem dip_self (hc : c.isNaN = false) : dip c m c = some 0 := by
  rw [dip, if_pos (beq_iff.mpr ⟨hc, hc, rfl⟩)]

theorem dip_of_ne {x : Float} (hx : ¬ x == c) : dip c m x = some m := by
  rw [dip, if_neg hx]

end Graph

namespace Origin

/-- If the zero of such a graph is moved to the origin, only the other value is left. -/
theorem value_snapAbscissa_dip (h : Hides w tol c) (hp : p.IsOn (Graph.dip c m)) :
    (snapAbscissa (Graph.dip c m) w (tol.noise w.step) p).value = m := by
  obtain ⟨hnan, hbound, hne, hlt⟩ := isNoise_iff.mp h.isNoise
  have horigin : Graph.dip c m 0 = some m := by
    apply Graph.dip_of_ne
    rw [beq_iff, position_zero]
    exact fun heq ↦ hne heq.2.2.symm
  by_cases hx : p.abscissa == c
  · obtain ⟨hxnan, -, hposition⟩ := beq_iff.mp hx
    have hnoise : isNoise (tol.noise w.step) p.abscissa := by
      rw [isNoise_iff, hposition]
      exact ⟨hxnan, hbound, hne, hlt⟩
    unfold snapAbscissa
    rw [if_pos (by rw [h.inWindow, hnoise]; rfl), horigin]
  · rcases snapAbscissa_cases (Graph.dip c m) w (tol.noise w.step) p with
      heq | ⟨z, -, -, hz, heq⟩ <;> rw [heq]
    · rw [hp, Graph.dip_of_ne hx, Option.getD_some]
    · exact Option.some.inj (hz.symm.trans horigin)

theorem not_accepts_dip (h : Hides w tol c) (heps : tol.eps ≤ m) (hnoise : tol.noise w.step ≤ m)
    (hp : p.IsOn (Graph.dip c m)) : ¬ crossing.accepts tol (snap (Graph.dip c m) w tol p) := by
  intro haccept
  have hpos := eps_pos_of_accepts haccept
  rw [snap_eq, accepts_snapValue_iff hpos, value_snapAbscissa_dip h hp] at haccept
  refine haccept.elim (not_abs_lt ?_) (not_abs_lt ?_)
  · exact (le_iff.mp heps).2.2.trans (le_abs_self _)
  · exact (le_iff.mp hnoise).2.2.trans (le_abs_self _)

theorem Hides.not_ends (h : Hides w tol c) (heps : tol.eps ≤ m) (hnoise : tol.noise w.step ≤ m)
    {state : Scan.State Unit} (hreached : Scan.Reached crossing (Graph.dip c m) w tol i state) :
    Scan.visit crossing (Graph.dip c m) w tol state (w.cursor i) ≠ .inl p := by
  intro hvisit
  obtain ⟨candidate, hsamples, rfl, haccept⟩ := hreached.found_candidate crossingMemory hvisit
  refine not_accepts_dip h heps hnoise (Candidate.refine_isOn fun s hs ↦ ?_) haccept
  obtain ⟨-, -, -, -, hsample⟩ := hsamples s hs
  exact hsample

end Origin

namespace Window.ReportsZeros

theorem eps_pos (h : w.ReportsZeros tol) (hone : w.Visits 1) : 0 < tol.eps :=
  eps_pos_of_root_found (h (Graph.const 0) 1 _ 0 (Graph.finiteValued_const isFinite_zero) .start
    hone rfl rfl)

theorem not_hides (h : w.ReportsZeros tol) (hw : w.isValid) (hfin : tol.eps.isFinite)
    (hone : 1 ≤ i) (hi : w.Visits i) : ¬ Origin.Hides w tol (w.cursor i) := by
  intro hhides
  obtain ⟨m, hm, heps, hnoise⟩ : ∃ m : Float, m.isFinite ∧ tol.eps ≤ m ∧ tol.noise w.step ≤ m := by
    have hnan := isNaN_of_isFinite hfin
    have hnoisenan := isNaN_of_isFinite hhides.isFinite
    by_cases hle : tol.eps ≤ tol.noise w.step
    · exact ⟨_, hhides.isFinite, hle, Grid.le_refl hnoisenan⟩
    · exact ⟨_, hfin, Grid.le_refl hnan, Grid.le_of_lt ((not_le_iff hnan hnoisenan).mp hle)⟩
  have hvisits : ∀ j, 1 ≤ j → j < i → w.Visits j :=
    fun j _ hj ↦ visits_of_le hw hj.le hi.1 (hi.cursor_le hw)
  rcases Scan.reached_or_found crossing (Graph.dip (w.cursor i) m) tol hvisits hone with
    ⟨state, hreached⟩ | ⟨j, state, p, -, hreached, -, hvisit⟩
  · have hfound := h _ i state 0 (Graph.finiteValued_dip hm) hreached hi
      (Graph.dip_self (isNaN_cursor hw i)) rfl
    obtain ⟨-, p, hscan, -, -⟩ := Search.root_found hfound
    obtain ⟨j, state, hreached, -, hvisit⟩ := Scan.scan_found hscan
    exact hhides.not_ends heps hnoise hreached hvisit
  · exact hhides.not_ends heps hnoise hreached hvisit

end Window.ReportsZeros

/-- With checked tolerances, all scans of a window report the zeros that they arrive at if and only
if `eps` is not zero and no visited cursor is so near to the origin that a zero over it is moved
there, or nothing is visited at all. -/
theorem Window.reportsZeros_iff (hw : w.isValid) (htol : Configuration.fault? tol = none) :
    w.ReportsZeros tol ↔
      ¬ w.Visits 1 ∨
        0 < tol.eps ∧ ∀ i, 1 ≤ i → w.Visits i → ¬ Origin.Hides w tol (w.cursor i) := by
  constructor
  · intro h
    by_cases hone : w.Visits 1
    · obtain ⟨⟨heps, -⟩, -⟩ := Configuration.fault?_eq_none.mp htol
      have hfin := (Configuration.isNonnegative_iff.mp heps).1
      exact .inr ⟨h.eps_pos hone, fun i hi hvisits ↦ h.not_hides hw hfin hi hvisits⟩
    · exact .inl hone
  · intro h f i state y hf hreached hi hy hzero
    rcases h with hone | ⟨heps, hkept⟩
    · exact absurd (visits_of_le hw hreached.one_le hi.1 (hi.cursor_le hw)) hone
    · exact Search.isFound_of_zero_sample hw htol heps hf hreached hi hy hzero
        (hkept i hreached.one_le hi)

/-- The zeros from one on are reported with the standard tolerances, and not with a tolerance of
zero; the ones of a window with a cursor beside the origin are not reported. -/
theorem Window.reportsZeros_upTo_and_not_besideOrigin :
    ((upTo 1 0).isValid ∧ besideOrigin.isValid ∧ Configuration.fault? {} = none ∧
      Configuration.fault? { eps := 0 } = none) ∧
    (upTo 1 0).ReportsZeros {} ∧ ¬ (upTo 1 0).ReportsZeros { eps := 0 } ∧
      ¬ besideOrigin.ReportsZeros {} := by
  have hw : (upTo 1 0).isValid := by decide +kernel
  have hbeside : besideOrigin.isValid := by decide +kernel
  have htol : Configuration.fault? {} = none := Configuration.fault?_eq_none.mpr (by decide +kernel)
  have hzero : Configuration.fault? { eps := 0 } = none :=
    Configuration.fault?_eq_none.mpr (by decide +kernel)
  have hone : (upTo 1 0).Visits 1 := visits_of_cursor_le (by norm_num) (by decide +kernel)
  refine ⟨⟨hw, hbeside, htol, hzero⟩, ?_, ?_, ?_⟩
  · refine (reportsZeros_iff hw htol).mpr (.inr ⟨by decide +kernel, fun i _ _ h ↦ ?_⟩)
    exact absurd h.inWindow (by decide +kernel)
  · intro h
    rcases (reportsZeros_iff hw hzero).mp h with hnone | ⟨heps, -⟩
    · exact hnone hone
    · exact absurd heps (by decide +kernel)
  · intro h
    rcases (reportsZeros_iff hbeside htol).mp h with hnone | ⟨-, hkept⟩
    · exact hnone visits_besideOrigin
    · exact hkept 1 le_rfl visits_besideOrigin
        ⟨by decide +kernel, by decide +kernel, by decide +kernel⟩

end CurveSearch
