import CurveSearch.Proofs.Bisection
import CurveSearch.Proofs.Brackets
import CurveSearch.Proofs.Inputs

/-!
# Overflow in refinement

A midpoint is computed as half of a sum, and the sum of two doubles may overflow where the midpoint
would not. A candidate is therefore refined to an abscissa in its bracket, or, if the double of an end
of the bracket overflows, to an infinite one. A window whose candidates all stay in their brackets is
one whose different cursors have doubles that do not overflow: across any other pair of cursors a
graph may change its sign, and with enough steps the bisection comes to a bracket whose midpoint is
infinite.
-/

namespace CurveSearch

open Grid Detector Scan

variable {f : Graph} {w : Window} {tol : Tolerances} {c : Candidate} {s : Sample} {i j : ℕ}

/-! ## The candidates of searches -/

def Search.Refines (f : Graph) (w : Window) (tol : Tolerances) (c : Candidate) : Prop :=
  Proposes crossing f w tol c ∨ ∃ kind, Proposes (turn kind) f w tol c

def Candidate.Overflows (c : Candidate) : Prop :=
  ¬ ((c.bracket.lo.x + c.bracket.lo.x).isFinite ∧ (c.bracket.hi.x + c.bracket.hi.x).isFinite)

def Candidate.Varies (c : Candidate) : Prop :=
  (∃ s, c = .exact s) ∨ ∃ s ∈ c.samples, ∃ t ∈ c.samples, s.y ≠ t.y

theorem Detector.ShowsRoot.varies {recent : List Sample} (h : ShowsRoot tol recent c) :
    c.Varies := by
  cases h with
  | @exact cur => exact .inl ⟨cur, rfl⟩
  | @signChange cur prev _ _ hsign =>
      refine .inr ⟨prev, by simp [Candidate.samples], cur, by simp [Candidate.samples], ?_⟩
      intro heq
      exact hsign (congrArg (fun y : Float ↦ decide (y < 0)) heq)
  | @touch cur prev first _ _ _ htouches =>
      refine .inr ⟨prev, by simp [Candidate.samples], cur, by simp [Candidate.samples], ?_⟩
      intro heq
      simp only [touches, Bool.and_eq_true, decide_eq_true_eq] at htouches
      have hlt := htouches.2
      rw [heq] at hlt
      exact Grid.lt_asymm hlt hlt

theorem Detector.ShowsTurn.varies {kind : Extremum} {recent : List Sample} {phase : Phase}
    (heps : 0 ≤ tol.eps) (hfin : ∀ s ∈ c.samples, s.y.isFinite)
    (h : ShowsTurn kind tol recent phase c) : c.Varies := by
  cases h with
  | @fall cur before best _ _ hfall =>
      refine .inr ⟨best, by simp [Candidate.samples], cur, by simp [Candidate.samples], ?_⟩
      intro heq
      have hbest := hfin best (by simp [Candidate.samples])
      have hlt := ((Extremum.rises_opposite_iff hbest heps).mpr hfall).lt_of_opposite hbest heps
      have hheight : kind.height best = kind.height cur := by
        cases kind <;> simp only [Extremum.height, heq]
      rw [hheight] at hlt
      exact Grid.lt_asymm hlt hlt

namespace Search.Refines

theorem pairwise_samples (hw : w.isValid) (h : Refines f w tol c) :
    c.samples.Pairwise fun a b ↦ a.x ≤ b.x := by
  rcases h with h | ⟨kind, h⟩
  · exact h.pairwise_samples isOrdered_crossingMemory hw
  · exact h.pairwise_samples (isOrdered_turnMemory kind) hw

theorem exists_visited (hw : w.isValid) (h : Refines f w tol c) (hs : s ∈ c.samples) :
    s.IsOf f ∧ ∃ j, 1 ≤ j ∧ w.Visits j ∧ s.x = w.cursor j := by
  rcases h with h | ⟨kind, h⟩
  · exact h.exists_visited isOrdered_crossingMemory hw hs
  · exact h.exists_visited (isOrdered_turnMemory kind) hw hs

theorem isFinite (hw : w.isValid) (h : Refines f w tol c) (hs : s ∈ c.samples) :
    s.x.isFinite := by
  obtain ⟨-, j, -, hj, heq⟩ := h.exists_visited hw hs
  rw [heq]
  exact Window.isFinite_cursor hw (hj.cursor_le hw)

theorem between (hw : w.isValid) (h : Refines f w tol c) :
    ∀ s ∈ c.samples, Between c.bracket.lo.x c.bracket.hi.x s.x :=
  Candidate.between_bracket (fun _ hs ↦ isNaN_of_isFinite (h.isFinite hw hs))
    (h.pairwise_samples hw)

theorem varies (hw : w.isValid) (hf : f.FiniteValued) (heps : 0 ≤ tol.eps)
    (h : Refines f w tol c) : c.Varies := by
  have hfin : ∀ s ∈ c.samples, s.y.isFinite := fun s hs ↦ hf _ _ (h.exists_visited hw hs).1
  rcases h with ⟨i, state, y, -, -, -, hc⟩ | ⟨kind, i, state, y, -, -, -, hc⟩
  · exact (showsRoot_of_rootCandidate? hc).varies
  · exact (showsTurn_of_turnCandidate? hc).varies heps hfin

/-- A candidate is refined to an abscissa that it covers, or it overflows and is refined to an
infinite one. -/
theorem refine_cases (hw : w.isValid) (h : Refines f w tol c) :
    ((c.refine f tol).abscissa.isFinite ∧ c.Covers (c.refine f tol).abscissa) ∨
      (c.Overflows ∧ (c.refine f tol).abscissa.isFinite = false ∧
        (c.refine f tol).abscissa.isNaN = false) := by
  have hbetween := h.between hw
  have hlo := h.isFinite hw c.lo_mem_samples
  have hhi := h.isFinite hw c.hi_mem_samples
  by_cases hfin : (c.refine f tol).abscissa.isFinite
  · exact .inl ⟨hfin, Candidate.covers_refine (Candidate.refine_between hlo hhi hbetween hfin)⟩
  · refine .inr ⟨fun hdoubles ↦ hfin ?_, Bool.eq_false_iff.mpr hfin,
      Candidate.isNaN_refine hlo hhi hbetween⟩
    exact Candidate.isFinite_refine hdoubles.1 hdoubles.2 hbetween

end Search.Refines

/-! ## Windows with room -/

namespace Window

/-- Whether all candidates of all searches through a window are refined to finite abscissas that they
cover. -/
def RefinesWithin (w : Window) : Prop :=
  ∀ f tol c, f.FiniteValued → Configuration.fault? tol = none → Search.Refines f w tol c →
    (c.refine f tol).abscissa.isFinite ∧ c.Covers (c.refine f tol).abscissa

/-- Whether the doubles of any two different cursors of a window are finite. -/
def HasRoom (w : Window) : Prop :=
  ∀ i j, 1 ≤ i → i < j → w.Visits j → w.cursor i < w.cursor j →
    (w.cursor i + w.cursor i).isFinite ∧ (w.cursor j + w.cursor j).isFinite

end Window

/-- The bracket of a candidate is longer than nothing, or around zero: samples over one abscissa
have one value. -/
theorem Candidate.Varies.lt_or_eq_zero (hvaries : c.Varies) (hexact : ∀ s, c ≠ .exact s)
    (hof : ∀ s ∈ c.samples, s.IsOf f) (hfin : ∀ s ∈ c.samples, s.x.isFinite)
    (hbetween : ∀ s ∈ c.samples, Between c.bracket.lo.x c.bracket.hi.x s.x) :
    c.bracket.lo.x < c.bracket.hi.x ∨
      position c.bracket.lo.x = 0 ∧ position c.bracket.hi.x = 0 := by
  have hlo := hbetween _ c.lo_mem_samples
  obtain ⟨hlonan, hhinan, hle⟩ := le_iff.mp hlo.2
  rcases hle.lt_or_eq with hlt | heq
  · exact .inl (lt_iff.mpr ⟨hlonan, hhinan, hlt⟩)
  · refine .inr ?_
    obtain ⟨s, hs⟩ | ⟨s, hs, t, ht, hne⟩ := hvaries
    · exact absurd hs (hexact s)
    · have hposition : ∀ s ∈ c.samples, position s.x = position c.bracket.lo.x := fun s hs ↦ by
        obtain ⟨hlow, hhigh⟩ := (hbetween s hs).position_le
        exact le_antisymm (hhigh.trans heq.ge) hlow
      by_contra hzero
      have hnonzero : position s.x ≠ 0 := by
        rw [hposition s hs]
        exact fun h ↦ hzero ⟨h, heq.symm.trans h⟩
      have hx := eq_of_position_eq (hfin s hs) (hfin t ht) hnonzero
        ((hposition s hs).trans (hposition t ht).symm)
      apply hne
      have hs' := hof s hs
      have ht' := hof t ht
      unfold Sample.IsOf at hs' ht'
      rw [hx] at hs'
      exact Option.some.inj (hs'.symm.trans ht')

theorem isFinite_add_self_of_eq_zero {a : Float} (ha : a.isFinite) (h : position a = 0) :
    (a + a).isFinite := by
  rw [isFinite_add_self_iff ha, h, abs_zero]
  exact half_pos limit_pos

theorem Window.refinesWithin_of_hasRoom (hw : w.isValid) (hroom : w.HasRoom) :
    w.RefinesWithin := by
  intro f tol c hf htol hc
  obtain ⟨⟨heps, -⟩, -⟩ := Configuration.fault?_eq_none.mp htol
  refine (hc.refine_cases hw).resolve_right ?_
  rintro ⟨hover, hinfinite, -⟩
  by_cases hexact : ∃ s, c = .exact s
  · obtain ⟨s, rfl⟩ := hexact
    have hfin : s.x.isFinite := hc.isFinite hw (List.mem_singleton_self s)
    exact nomatch hfin.symm.trans hinfinite
  · push Not at hexact
    have hlo := hc.isFinite hw c.lo_mem_samples
    have hhi := hc.isFinite hw c.hi_mem_samples
    apply hover
    rcases (hc.varies hw hf (Configuration.le_of_isNonnegative heps)).lt_or_eq_zero hexact
      (fun s hs ↦ (hc.exists_visited hw hs).1) (fun s hs ↦ hc.isFinite hw hs)
      (hc.between hw) with hlt | ⟨hlo₀, hhi₀⟩
    · obtain ⟨-, i, hi, hvis, heqi⟩ := hc.exists_visited hw c.lo_mem_samples
      obtain ⟨-, j, -, hj, heqj⟩ := hc.exists_visited hw c.hi_mem_samples
      rw [heqi, heqj] at hlt ⊢
      have hij : i < j := by
        by_contra hle
        exact (lt_iff.mp hlt).2.2.not_ge
          (le_iff.mp (cursor_mono hw (not_lt.mp hle) hvis.1)).2.2
      exact hroom i j hi hij hj hlt
    · exact ⟨isFinite_add_self_of_eq_zero hlo hlo₀, isFinite_add_self_of_eq_zero hhi hhi₀⟩

/-! ## Graphs that are cut -/

/-- The graph that changes its sign once. -/
def Graph.cut (below : Float → Bool) : Graph := fun x ↦ some (if below x then -1 else 1)

section Cut

variable {below : Float → Bool} {lo hi a b : Float} {n : ℕ}

theorem Graph.cut_of_below {x : Float} (h : below x) : cut below x = some (-1) := by
  rw [cut, if_pos h]

theorem Graph.cut_of_not_below {x : Float} (h : ¬ below x) : cut below x = some 1 := by
  rw [cut, if_neg h]

theorem Graph.finiteValued_cut (below : Float → Bool) : (cut below).FiniteValued := by
  rintro x y ⟨⟩
  split_ifs <;> rfl

theorem Graph.cut_ne_zero {x y : Float} (h : cut below x = some y) : ¬ y == 0 := by
  rw [cut, Option.some.injEq] at h
  rw [← h]
  split_ifs <;> decide +kernel

/-- Whether the doubles of two numbers are finite only if they are on the same side. -/
structure Overflowing (below : Float → Bool) : Prop where
  lower : ∀ {x y : Float}, x ≤ y → below y → below x
  overflow : ∀ {x y : Float}, x.isFinite → y.isFinite → below x → ¬ below y →
    ¬ ((x + x).isFinite ∧ (y + y).isFinite)

theorem overflowing_lt (hb : limit / 2 ≤ position b) (hnan : b.isNaN = false) :
    Overflowing fun x ↦ x < b where
  lower hle hlt := by
    rw [decide_eq_true_eq] at hlt ⊢
    exact Grid.lt_of_le_of_lt hle hlt
  overflow := by
    rintro x y - hy - hnot ⟨-, hdouble⟩
    rw [decide_eq_true_eq, not_lt_iff (isNaN_of_isFinite hy) hnan] at hnot
    rw [isFinite_add_self_iff hy] at hdouble
    exact (le_abs_self _).not_gt (hdouble.trans_le (hb.trans (le_iff.mp hnot).2.2))

theorem overflowing_le (ha : position a ≤ -(limit / 2)) : Overflowing fun x ↦ x ≤ a where
  lower hle hle' := by
    rw [decide_eq_true_eq] at hle' ⊢
    exact Grid.le_trans hle hle'
  overflow := by
    rintro x y hx - hbelow - ⟨hdouble, -⟩
    rw [decide_eq_true_eq] at hbelow
    rw [isFinite_add_self_iff hx, abs_lt] at hdouble
    exact hdouble.1.not_ge ((le_iff.mp hbelow).2.2.trans ha)

namespace Bisection

theorem Reached.cut (hlo : below lo) (hhi : ¬ below hi)
    (h : Reached (Graph.cut below) true lo hi n a b) : below a ∧ ¬ below b := by
  induction h with
  | start => exact ⟨hlo, hhi⟩
  | @step n a b a' b' _ hhalf ih =>
      obtain ⟨-, -, y, hy, -, hends⟩ := halve_eq_half hhalf
      rw [Graph.cut, Option.some.injEq] at hy
      rcases hends with ⟨hneg, rfl, rfl⟩ | ⟨hneg, rfl, rfl⟩
      · refine ⟨?_, ih.2⟩
        by_contra hnot
        rw [← hy, if_neg hnot] at hneg
        exact absurd hneg (by decide +kernel)
      · refine ⟨ih.1, fun hbelow ↦ hneg ?_⟩
        rw [← hy, if_pos hbelow]
        decide +kernel

theorem exists_bisect_cut (hcut : Overflowing below) (hlo : lo.isFinite) (hhi : hi.isFinite)
    (hlt : lo < hi) (hbelow : below lo) (habove : ¬ below hi) :
    ∃ n, n ≠ 0 ∧ ¬ (bisect (Graph.cut below) true n lo hi).abscissa.isFinite := by
  obtain ⟨n, a, b, hreached, hlast⟩ := exists_reached_last (Graph.cut below) true hlo hhi hlt
  obtain ⟨ha, hb, hab⟩ := hreached.ordered hlo hhi hlt
  obtain ⟨hbelow', habove'⟩ := hreached.cut hbelow habove
  refine ⟨n + 1, Nat.succ_ne_zero n, fun hfin ↦ ?_⟩
  rw [hreached.bisect_eq 1, abscissa_bisect_of_last hlast] at hfin
  -- A finite midpoint would be strictly inside, and the bracket could be halved there.
  obtain ⟨hleft, hright⟩ := midpoint_inside (ha.isFinite hlo hhi) (hb.isFinite hlo hhi) hab
    (hcut.overflow (ha.isFinite hlo hhi) (hb.isFinite hlo hhi) hbelow' habove') hfin
  have hvalue : Graph.cut below (midpoint a b) = some _ := rfl
  have hhalf : ∃ a' b', halve (Graph.cut below) true a b = .half a' b' :=
    exists_half_of_inside hleft hright hvalue (Graph.cut_ne_zero hvalue)
  obtain ⟨a', b', hhalf⟩ := hhalf
  exact hlast a' b' hhalf

end Bisection

namespace Scan

theorem not_showsRoot_of_forall_eq {recent : List Sample} {y : Float} (hy : ¬ y.abs ≤ tol.zeroEps)
    (hall : ∀ s ∈ c.samples, s.y = y) : ¬ ShowsRoot tol recent c := by
  intro h
  rcases h.varies with ⟨s, rfl⟩ | ⟨s, hs, t, ht, hne⟩
  · cases h with
    | exact hexact =>
        rw [hall s (List.mem_singleton_self s)] at hexact
        exact hy hexact
  · exact hne ((hall s hs).trans (hall t ht).symm)

theorem exists_reached_cut (hw : w.isValid) (hy : ¬ (-1 : Float).abs ≤ tol.zeroEps) {k : ℕ}
    (hk : w.Visits k) (hbelow : ∀ m, 1 ≤ m → m ≤ k → below (w.cursor m)) :
    ∃ state, Reached crossing (Graph.cut below) w tol (k + 1) state := by
  have hvisits : ∀ j, 1 ≤ j → j < k + 1 → w.Visits j :=
    fun j _ hj ↦ Window.visits_of_le hw (Nat.lt_succ_iff.mp hj) hk.1 (hk.cursor_le hw)
  rcases reached_or_found crossing (Graph.cut below) tol hvisits (by omega) with
    hreached | ⟨j, state, p, hj, hreached, -, hvisit⟩
  · exact hreached
  · obtain ⟨c, recent, memory, hc, htaken, -⟩ := hreached.found_detected crossingMemory hvisit
    refine absurd (showsRoot_of_rootCandidate? hc) (not_showsRoot_of_forall_eq hy fun s hs ↦ ?_)
    obtain ⟨m, hm, hlt, hx, hof⟩ := htaken s hs
    rw [Sample.IsOf, hx, Graph.cut_of_below (hbelow m hm (by omega))] at hof
    exact (Option.some.inj hof).symm

/-- At the first cursor that is not below the cut the scan has a bracket around the cut. -/
theorem proposes_cut (hw : w.isValid) (hneg : ¬ (-1 : Float).abs ≤ tol.zeroEps)
    (hpos : ¬ (1 : Float).abs ≤ tol.zeroEps) {k : ℕ} (hk : w.Visits (k + 2))
    (hbelow : ∀ m, 1 ≤ m → m ≤ k + 1 → below (w.cursor m))
    (habove : ¬ below (w.cursor (k + 2))) :
    Proposes crossing (Graph.cut below) w tol
      (.signChange ⟨⟨w.cursor (k + 1), -1⟩, ⟨w.cursor (k + 2), 1⟩⟩) := by
  have hvis := Window.visits_of_le hw (Nat.le_succ (k + 1)) hk.1 (hk.cursor_le hw)
  obtain ⟨state, hreached⟩ := exists_reached_cut hw hneg hvis hbelow
  have hvalue := Graph.cut_of_not_below habove
  have hlast : state.history.recent.head? = some ⟨w.cursor (k + 1), -1⟩ := by
    have hsummary := summarizes_ofSamples crossing tol (w.samples (Graph.cut below) (k + 1))
    rw [hreached.eq_ofSamples]
    refine hsummary.latest?_eq.trans ?_
    rw [Window.samples_succ_of_some (Graph.cut_of_below (hbelow (k + 1) (by omega) le_rfl)),
      List.getLast?_concat]
  obtain ⟨earlier, hrecent⟩ := List.head?_eq_some_iff.mp hlast
  obtain ⟨rest, hpushed⟩ := History.recent_push_eq_cons_cons (s := ⟨w.cursor (k + 2), 1⟩)
    ((by norm_num : 2 ≤ 3).trans hreached.three_le_capacity) hrecent
  refine ⟨k + 2, state, 1, hreached, hk, hvalue, ?_⟩
  have hsign : decide ((-1 : Float) < 0) ≠ decide ((1 : Float) < 0) := by decide +kernel
  have hshown : ShowsRoot tol (⟨w.cursor (k + 2), 1⟩ :: ⟨w.cursor (k + 1), -1⟩ :: rest)
      (.signChange ⟨⟨w.cursor (k + 1), -1⟩, ⟨w.cursor (k + 2), 1⟩⟩) := .signChange hpos hsign
  rw [State.detected, State.pushed, hpushed]
  exact hshown.rootCandidate?_eq

end Scan

namespace Window.RefinesWithin

/-- If all candidates stay in their brackets, no cut is between visited cursors. -/
theorem below_of_visits (h : w.RefinesWithin) (hw : w.isValid) (hcut : Overflowing below)
    (hi : 1 ≤ i) (hij : i < j) (hj : w.Visits j) (hbelow : below (w.cursor i)) :
    below (w.cursor j) := by
  by_contra habove
  obtain ⟨k, hik, hkj, hk, hk'⟩ :
      ∃ k, i ≤ k ∧ k < j ∧ below (w.cursor k) ∧ ¬ below (w.cursor (k + 1)) := by
    by_contra hnone
    push Not at hnone
    have hall : ∀ m, i ≤ m → m ≤ j → below (w.cursor m) := by
      intro m hm
      induction m, hm using Nat.le_induction with
      | base => exact fun _ ↦ hbelow
      | succ m hm ih => exact fun hle ↦ hnone m hm (by omega) (ih (by omega))
    exact habove (hall j hij.le le_rfl)
  obtain ⟨k, rfl⟩ := Nat.exists_eq_add_one.mpr (hi.trans hik)
  have hvis : w.Visits (k + 2) := visits_of_le hw hkj hj.1 (hj.cursor_le hw)
  have hvis' : w.Visits (k + 1) := visits_of_le hw hkj.le hj.1 (hj.cursor_le hw)
  have hlt : w.cursor (k + 1) < w.cursor (k + 2) := by
    rw [← not_le_iff (isNaN_cursor hw _) (isNaN_cursor hw _)]
    exact fun hle ↦ hk' (hcut.lower hle hk)
  obtain ⟨n, hn, hinfinite⟩ := Bisection.exists_bisect_cut hcut
    (isFinite_cursor hw (hvis'.cursor_le hw)) (isFinite_cursor hw (hvis.cursor_le hw)) hlt hk hk'
  have hsmall : ¬ (-1 : Float).abs ≤ ({ maxIterations := n } : Tolerances).zeroEps ∧
      ¬ (1 : Float).abs ≤ ({ maxIterations := n } : Tolerances).zeroEps := by
    change ¬ (-1 : Float).abs ≤ ({} : Tolerances).zeroEps ∧
      ¬ (1 : Float).abs ≤ ({} : Tolerances).zeroEps
    decide +kernel
  have hproposes := Scan.proposes_cut hw hsmall.1 hsmall.2 hvis
    (fun m _ hm ↦ hcut.lower (cursor_mono hw hm hvis'.1) hk) hk'
  have hnegative : Sample.isNegative ⟨w.cursor (k + 1), -1⟩ = true :=
    decide_eq_true (by decide +kernel : (-1 : Float) < 0)
  have hfinite := (h _ _ _ (Graph.finiteValued_cut below) (Configuration.fault?_maxIterations hn)
    (.inl hproposes)).1
  rw [Candidate.refine, hnegative] at hfinite
  exact hinfinite hfinite

theorem hasRoom (h : w.RefinesWithin) (hw : w.isValid) : w.HasRoom := by
  intro i j hi hij hj hlt
  have hvis := visits_of_le hw hij.le hj.1 (hj.cursor_le hw)
  have hifin := isFinite_cursor hw (hvis.cursor_le hw)
  have hjfin := isFinite_cursor hw (hj.cursor_le hw)
  by_contra hover
  rcases Bisection.overflow_cases hifin hjfin hlt hover with hbig | hbig
  · have hbelow := h.below_of_visits hw
      (overflowing_lt hbig (isNaN_cursor hw j)) hi hij hj (decide_eq_true hlt)
    have hself : w.cursor j < w.cursor j := of_decide_eq_true hbelow
    exact Grid.lt_asymm hself hself
  · have hrefl := Grid.le_refl (isNaN_cursor hw i)
    have hbelow := h.below_of_visits hw
      (overflowing_le hbig) hi hij hj (decide_eq_true hrefl)
    have hle : w.cursor j ≤ w.cursor i := of_decide_eq_true hbelow
    exact (not_le_iff (isNaN_cursor hw j) (isNaN_cursor hw i)).mpr hlt hle

end Window.RefinesWithin

end Cut

/-! ## The condition -/

/-- All candidates of all searches through a window are refined to finite abscissas that they cover if
and only if the doubles of any two different cursors are finite. In any window a candidate that is
not refined so has an end whose double overflows, and its abscissa is infinite. -/
theorem Window.refinesWithin_iff (hw : w.isValid) :
    (w.RefinesWithin ↔ w.HasRoom) ∧ ∀ f tol c, Search.Refines f w tol c →
      ((c.refine f tol).abscissa.isFinite ∧ c.Covers (c.refine f tol).abscissa) ∨
        (c.Overflows ∧ (c.refine f tol).abscissa.isFinite = false ∧
          (c.refine f tol).abscissa.isNaN = false) :=
  ⟨⟨fun h ↦ h.hasRoom hw, refinesWithin_of_hasRoom hw⟩, fun _ _ _ h ↦ h.refine_cases hw⟩

namespace Window

theorem hasRoom_of_isFinite (hw : w.isValid) (hstart : (w.start + w.start).isFinite)
    (hmax : (w.max + w.max).isFinite) : w.HasRoom := by
  have hdouble : ∀ i, 1 ≤ i → w.Visits i → (w.cursor i + w.cursor i).isFinite := by
    intro i _ hi
    have hle := hi.cursor_le hw
    have hstart' := (abs_lt.mp ((isFinite_add_self_iff (isFinite_of_add hstart).1).mp hstart)).1
    have hmax' := (abs_lt.mp ((isFinite_add_self_iff (isFinite_of_add hmax).1).mp hmax)).2
    rw [isFinite_add_self_iff (isFinite_cursor hw hle), abs_lt]
    exact ⟨hstart'.trans_le (le_iff.mp (start_le_cursor hw i)).2.2,
      (le_iff.mp hle).2.2.trans_lt hmax'⟩
  intro i j hi hij hj _
  have hvis := visits_of_le hw hij.le hj.1 (hj.cursor_le hw)
  exact ⟨hdouble i hi hvis, hdouble j (by omega) hj⟩

/-- A window in the last binade. -/
def lastBinade : Window :=
  ⟨8.98846567431158e307, 2.247116418577895e307, 1.5729814930045264e308⟩

/-- The standard window refines within its brackets, and a window in the last binade does not. -/
theorem refinesWithin_standard_and_not_lastBinade :
    (standard.isValid ∧ lastBinade.isValid) ∧
      standard.RefinesWithin ∧ ¬ lastBinade.RefinesWithin := by
  have hstandard : standard.isValid := by decide +kernel
  have hlast : lastBinade.isValid := by decide +kernel
  refine ⟨⟨hstandard, hlast⟩, ?_, fun h ↦ ?_⟩
  · exact (refinesWithin_iff hstandard).1.mpr
      (hasRoom_of_isFinite hstandard (by decide +kernel) (by decide +kernel))
  · have hvis : lastBinade.Visits 2 := visits_of_cursor_le (by norm_num) (by decide +kernel)
    have hroom := (refinesWithin_iff hlast).1.mp h 1 2 le_rfl (by norm_num) hvis
      (by decide +kernel)
    exact absurd hroom.1 (by decide +kernel)

end Window

end CurveSearch
