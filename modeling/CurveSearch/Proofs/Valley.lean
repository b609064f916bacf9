import CurveSearch.Proofs.Refinement

/-!
# Golden-section search keeps the valley

If a cost falls as far as the bottom of a valley and rises from there on, then of two probes on one
side of the bottom the farther one costs more. So the end that moves never passes the bottom, and this
is all that is used: rounding may put the probes anywhere, but a step is only taken while the ends and
probes are in increasing order.
-/

namespace CurveSearch.GoldenSection

open Grid

variable {cost : Float → Float} {lo hi m : Float} {n : ℕ} {s : Division}

/-! ## Valleys -/

/-- Whether a cost strictly falls before `m` and strictly rises after it, on the doubles between two
bounds. The cost at `m` may be anything, so `m` can belong to the falling side, to the rising one, to
both or to neither. -/
structure IsValley (cost : Float → Float) (lo hi m : Float) : Prop where
  between : Between lo hi m
  falls : ∀ x y, lo ≤ x → x < y → y < m → cost y < cost x
  rises : ∀ x y, m < x → x < y → y ≤ hi → cost x < cost y

namespace IsValley

variable {c d : Float}

theorem isNaN_eq (h : IsValley cost lo hi m) : m.isNaN = false := (le_iff.mp h.between.1).2.1

/-- The left one of two probes is not after the bottom, unless it costs less. -/
theorem le_of_not_lt (h : IsValley cost lo hi m) (hcd : c < d) (hd : d ≤ hi)
    (hcost : ¬ cost c < cost d) : c ≤ m := by
  rw [← not_lt_iff h.isNaN_eq (lt_iff.mp hcd).1]
  exact fun hlt ↦ hcost (h.rises c d hlt hcd hd)

/-- The right one of two probes is not before the bottom, unless it costs less. -/
theorem ge_of_not_lt (h : IsValley cost lo hi m) (hc : lo ≤ c) (hcd : c < d)
    (hcost : ¬ cost d < cost c) : m ≤ d := by
  rw [← not_lt_iff (lt_iff.mp hcd).2.1 h.isNaN_eq]
  exact fun hlt ↦ hcost (h.falls c d hc hcd hlt)

end IsValley

/-! ## One step -/

namespace Division

structure IsCurrent (cost : Float → Float) (s : Division) : Prop where
  costC : s.costC = cost s.c
  costD : s.costD = cost s.d

theorem isCurrent_ofEnds (cost : Float → Float) (a b : Float) : (ofEnds cost a b).IsCurrent cost :=
  ⟨rfl, rfl⟩

/-- The probe that is used again brings its cost with it. -/
theorem IsCurrent.shrink (h : s.IsCurrent cost) : (s.shrink cost).IsCurrent cost := by
  unfold Division.shrink
  split_ifs
  · exact ⟨rfl, h.costC⟩
  · exact ⟨h.costD, rfl⟩
  · exact isCurrent_ofEnds cost s.c s.d

structure Keeps (lo hi m : Float) (s : Division) : Prop where
  lo_le : lo ≤ s.a
  le_m : s.a ≤ m
  m_le : m ≤ s.b
  le_hi : s.b ≤ hi

theorem keeps_ofEnds (h : IsValley cost lo hi m) : (ofEnds cost lo hi).Keeps lo hi m where
  lo_le := Grid.le_refl (le_iff.mp h.between.1).1
  le_m := h.between.1
  m_le := h.between.2
  le_hi := Grid.le_refl (le_iff.mp h.between.2).2.1

theorem Keeps.shrink (hvalley : IsValley cost lo hi m) (hcurrent : s.IsCurrent cost)
    (hordered : s.isOrdered) (h : s.Keeps lo hi m) : (s.shrink cost).Keeps lo hi m := by
  simp only [isOrdered, Bool.and_eq_true, decide_eq_true_eq] at hordered
  obtain ⟨⟨hac, hcd⟩, hdb⟩ := hordered
  have hc : lo ≤ s.c := Grid.le_trans h.lo_le (Grid.le_of_lt hac)
  have hd : s.d ≤ hi := Grid.le_trans (Grid.le_of_lt hdb) h.le_hi
  have hleft : ¬ s.costC < s.costD → s.c ≤ m := by
    rw [hcurrent.costC, hcurrent.costD]
    exact hvalley.le_of_not_lt hcd hd
  have hright : ¬ s.costD < s.costC → m ≤ s.d := by
    rw [hcurrent.costC, hcurrent.costD]
    exact hvalley.ge_of_not_lt hc hcd
  -- The end beside a probe that costs less stays, and the other probe becomes an end.
  unfold Division.shrink
  split_ifs with hlt hgt
  · exact ⟨h.lo_le, h.le_m, hright (Grid.lt_asymm hlt), hd⟩
  · exact ⟨hc, hleft hlt, h.m_le, h.le_hi⟩
  · exact ⟨hc, hleft hlt, hright hgt, hd⟩

end Division

/-! ## Runs -/

/-- The divisions that a search comes to, with the number of steps it takes. -/
inductive Reached (cost : Float → Float) (lo hi : Float) : ℕ → Division → Prop
  | start : Reached cost lo hi 0 (.ofEnds cost lo hi)
  | step {n : ℕ} {s : Division} : Reached cost lo hi n s → s.isOrdered →
      Reached cost lo hi (n + 1) (s.shrink cost)

namespace Reached

theorem isCurrent (h : Reached cost lo hi n s) : s.IsCurrent cost := by
  induction h with
  | start => exact Division.isCurrent_ofEnds cost lo hi
  | step _ _ ih => exact ih.shrink

theorem keeps (hvalley : IsValley cost lo hi m) (h : Reached cost lo hi n s) :
    s.Keeps lo hi m := by
  induction h with
  | start => exact Division.keeps_ofEnds hvalley
  | step hreached hordered ih => exact ih.shrink hvalley hreached.isCurrent hordered

theorem narrow (steps : ℕ) (h : Reached cost lo hi n s) :
    ∃ k ≤ n + steps, Reached cost lo hi k (s.narrow cost steps) ∧
      (k = n + steps ∨ ¬ (s.narrow cost steps).isOrdered) := by
  induction steps generalizing n s with
  | zero => exact ⟨n, le_rfl, h, .inl rfl⟩
  | succ steps ih =>
      rw [Division.narrow]
      split_ifs with hordered
      · rw [← Nat.add_assoc, Nat.add_right_comm]
        exact ih (h.step hordered)
      · exact ⟨n, by omega, h, .inr hordered⟩

end Reached

/-- Whatever divisions a golden-section search comes to, the bottom of the valley stays between their
ends, and their costs are those of their probes. The search ends with the midpoint of the last one. -/
theorem minimize_of_isValley (h : IsValley cost lo hi m) (steps : ℕ) :
    (∀ n s, Reached cost lo hi n s → s.Keeps lo hi m ∧ s.IsCurrent cost) ∧
      ∃ n s, n ≤ steps ∧ Reached cost lo hi n s ∧ (n = steps ∨ ¬ s.isOrdered) ∧
        s.Keeps lo hi m ∧ minimize cost steps lo hi = Bisection.midpoint s.a s.b := by
  refine ⟨fun n s hreached ↦ ⟨hreached.keeps h, hreached.isCurrent⟩, ?_⟩
  have hstart : Reached cost lo hi 0 (.ofEnds cost lo hi) := .start
  obtain ⟨n, hn, hreached, hlast⟩ := hstart.narrow steps
  rw [Nat.zero_add] at hn hlast
  exact ⟨n, _, hn, hreached, hlast, hreached.keeps h, rfl⟩

theorem isValley_abs (hlo : lo ≤ 0) (hhi : 0 ≤ hi) : IsValley Float.abs lo hi 0 where
  between := ⟨hlo, hhi⟩
  falls x y _ hxy hy := by
    obtain ⟨hx, hynan, hlt⟩ := lt_iff.mp hxy
    have hneg : position y < 0 := (lt_iff.mp hy).2.2
    rw [lt_iff, isNaN_abs, isNaN_abs, position_abs, position_abs, abs_of_neg hneg,
      abs_of_neg (hlt.trans hneg)]
    exact ⟨hynan, hx, neg_lt_neg hlt⟩
  rises x y hx hxy _ := by
    obtain ⟨hxnan, hy, hlt⟩ := lt_iff.mp hxy
    have hpos : 0 < position x := (lt_iff.mp hx).2.2
    rw [lt_iff, isNaN_abs, isNaN_abs, position_abs, position_abs, abs_of_pos hpos,
      abs_of_pos (hpos.trans hlt)]
    exact ⟨hxnan, hy, hlt⟩

/-- From minus one and two a search for the least absolute value ends with a midpoint around zero. -/
theorem minimize_of_isValley_abs :
    IsValley Float.abs (-1) 2 0 ∧ ∃ s : Division, s.Keeps (-1) 2 0 ∧ s.IsCurrent Float.abs ∧
      minimize Float.abs 60 (-1) 2 = Bisection.midpoint s.a s.b := by
  have hvalley : IsValley Float.abs (-1) 2 0 := isValley_abs (by decide +kernel) (by decide +kernel)
  obtain ⟨hkeeps, n, s, -, hreached, -, -, hmid⟩ := minimize_of_isValley hvalley 60
  exact ⟨hvalley, s, (hkeeps n s hreached).1, (hkeeps n s hreached).2, hmid⟩

end CurveSearch.GoldenSection
