import CurveSearch.Proofs.Overflow

/-!
# Bisection keeps a change of sign

The end that has the sign of the midpoint moves to it, so the signs at the ends of a bracket stay the
ones at the ends of the first bracket, whatever the values in between are. A bisection therefore ends
with a zero of the graph, or with the midpoint of a bracket around a change of sign.
-/

namespace CurveSearch

open Grid

namespace Bracket

/-- Whether a bracket is an interval with samples of a graph at its ends, one of them negative and the
other one not. -/
structure ChangesSign (bracket : Bracket) (f : Graph) : Prop where
  isFinite_lo : bracket.lo.x.isFinite
  isFinite_hi : bracket.hi.x.isFinite
  lt : bracket.lo.x < bracket.hi.x
  lo_isOf : bracket.lo.IsOf f
  hi_isOf : bracket.hi.IsOf f
  signs : bracket.lo.isNegative ≠ bracket.hi.isNegative

/-- Whether two abscissas are the ends of a part of a bracket, with the signs that the samples of the
bracket have. -/
structure KeepsSigns (bracket : Bracket) (f : Graph) (a b : Float) : Prop where
  lo_le : bracket.lo.x ≤ a
  lt : a < b
  le_hi : b ≤ bracket.hi.x
  left : ∃ y, f a = some y ∧ decide (y < 0) = bracket.lo.isNegative
  right : ∃ y, f b = some y ∧ decide (y < 0) = bracket.hi.isNegative

end Bracket

variable {f : Graph} {negative : Bool} {bracket : Bracket} {lo hi a b a' b' : Float} {n : ℕ}
  {p : Point}

/-! ## One step -/

namespace Bisection

theorem half_strict (ha : a.isFinite) (hb : b.isFinite) (h : halve f negative a b = .half a' b') :
    a < a' ∧ b' = b ∨ a' = a ∧ b' < b := by
  obtain ⟨hleft, hright⟩ := inside_of_half ha hb h
  rcases ends_of_half h with ⟨rfl, rfl⟩ | ⟨rfl, rfl⟩
  · exact .inl ⟨hleft, rfl⟩
  · exact .inr ⟨rfl, hright⟩

end Bisection

namespace Bracket

theorem ChangesSign.keepsSigns (h : bracket.ChangesSign f) :
    bracket.KeepsSigns f bracket.lo.x bracket.hi.x where
  lo_le := Grid.le_refl (isNaN_of_isFinite h.isFinite_lo)
  lt := h.lt
  le_hi := Grid.le_refl (isNaN_of_isFinite h.isFinite_hi)
  left := ⟨bracket.lo.y, h.lo_isOf, rfl⟩
  right := ⟨bracket.hi.y, h.hi_isOf, rfl⟩

namespace KeepsSigns

theorem isFinite (hsign : bracket.ChangesSign f) (h : bracket.KeepsSigns f a b) :
    a.isFinite ∧ b.isFinite := by
  have hle := Grid.le_of_lt h.lt
  exact ⟨isFinite_of_le_of_le hsign.isFinite_lo hsign.isFinite_hi h.lo_le (Grid.le_trans hle h.le_hi),
    isFinite_of_le_of_le hsign.isFinite_lo hsign.isFinite_hi (Grid.le_trans h.lo_le hle) h.le_hi⟩

theorem half (hsign : bracket.ChangesSign f) (h : bracket.KeepsSigns f a b)
    (hhalf : Bisection.halve f bracket.lo.isNegative a b = .half a' b') :
    bracket.KeepsSigns f a' b' := by
  obtain ⟨ha, hb⟩ := h.isFinite hsign
  obtain ⟨hleft, hright⟩ := Bisection.inside_of_half ha hb hhalf
  obtain ⟨-, -, y, hy, -, hends⟩ := Bisection.halve_eq_half hhalf
  rcases hends with ⟨hsame, rfl, rfl⟩ | ⟨hother, rfl, rfl⟩
  · exact ⟨Grid.le_trans h.lo_le (Grid.le_of_lt hleft), hright, h.le_hi, ⟨y, hy, hsame⟩, h.right⟩
  · -- There are only two signs, so a value without the left one has the right one.
    have hy' : decide (y < 0) = bracket.hi.isNegative :=
      (Bool.eq_not.mpr hother).trans (Bool.eq_not.mpr hsign.signs.symm).symm
    exact ⟨h.lo_le, hleft, Grid.le_trans (Grid.le_of_lt hright) h.le_hi, h.left, ⟨y, hy, hy'⟩⟩

end KeepsSigns

end Bracket

/-! ## Runs -/

namespace Bisection

theorem Reached.keepsSigns (hsign : bracket.ChangesSign f)
    (h : Reached f bracket.lo.isNegative bracket.lo.x bracket.hi.x n a b) :
    bracket.KeepsSigns f a b := by
  induction h with
  | start => exact hsign.keepsSigns
  | step _ hhalf ih => exact ih.half hsign hhalf

/-- A bisection goes on to a bracket in which it hits a zero, or to one that is the last: the step is
stuck, or no step is left. -/
theorem Reached.exists_last (steps : ℕ) (h : Reached f negative lo hi n a b) :
    ∃ m a' b', m ≤ n + steps ∧ Reached f negative lo hi m a' b' ∧
      (halve f negative a' b' = .zero (bisect f negative steps a b) ∨
        (m = n + steps ∨ halve f negative a' b' = .stuck) ∧
          bisect f negative steps a b = pointAt f (midpoint a' b')) := by
  induction steps generalizing n a b with
  | zero => exact ⟨n, a, b, le_rfl, h, .inr ⟨.inl rfl, rfl⟩⟩
  | succ steps ih =>
      rw [bisect]
      rcases halve_cases f negative a b with hstep | ⟨y, -, hstep⟩ | ⟨a', b', hstep⟩ <;> rw [hstep]
      · exact ⟨n, a, b, by omega, h, .inr ⟨.inr hstep, rfl⟩⟩
      · exact ⟨n, a, b, by omega, h, .inl hstep⟩
      · rw [← Nat.add_assoc, Nat.add_right_comm]
        exact ih (h.step hstep)

end Bisection

theorem Point.IsOn.isNaN_iff (hf : f.FiniteValued) (h : p.IsOn f) :
    p.value.isNaN ↔ f p.abscissa = none := by
  unfold IsOn at h
  rw [h]
  cases hx : f p.abscissa with
  | none => exact iff_of_true isNaN_nan rfl
  | some y =>
      rw [Option.getD_some, isNaN_of_isFinite (hf _ _ hx)]
      exact iff_of_false Bool.false_ne_true nofun

namespace Bisection

/-- Every bracket that a bisection comes to has the signs of the first one at its ends, and every step
that does not end the bisection makes the bracket smaller. The bisection ends with a zero in the first
bracket, or with the midpoint of the last one and the value over it, which is not a number just where
the graph has a gap. -/
theorem bisect_of_changesSign (hf : f.FiniteValued) (hsign : bracket.ChangesSign f) (steps : ℕ) :
    (∀ n a b, Reached f bracket.lo.isNegative bracket.lo.x bracket.hi.x n a b →
      bracket.KeepsSigns f a b ∧
        ∀ a' b', halve f bracket.lo.isNegative a b = .half a' b' →
          a < a' ∧ b' = b ∨ a' = a ∧ b' < b) ∧
      let p := bisect f bracket.lo.isNegative steps bracket.lo.x bracket.hi.x
      Between bracket.lo.x bracket.hi.x p.abscissa ∧ f p.abscissa = some p.value ∧ p.value == 0 ∨
        ∃ n a b, n ≤ steps ∧
          Reached f bracket.lo.isNegative bracket.lo.x bracket.hi.x n a b ∧
          (n = steps ∨ halve f bracket.lo.isNegative a b = .stuck) ∧
          p.abscissa = midpoint a b ∧ p.IsOn f ∧ (p.value.isNaN ↔ f p.abscissa = none) := by
  refine ⟨fun n a b hreached ↦ ?_, ?_⟩
  · have hkeeps := hreached.keepsSigns hsign
    obtain ⟨ha, hb⟩ := hkeeps.isFinite hsign
    exact ⟨hkeeps, fun a' b' ↦ half_strict ha hb⟩
  · intro p
    obtain ⟨n, a, b, hn, hreached, hzero | ⟨hlast, hpoint⟩⟩ := Reached.start.exists_last steps
    · refine .inl ?_
      have hkeeps := hreached.keepsSigns hsign
      obtain ⟨ha, hb⟩ := hkeeps.isFinite hsign
      obtain ⟨hlow, hhigh, habscissa, hzero⟩ := halve_eq_zero hzero
      obtain ⟨hleft, hright⟩ := inside_of_not_le ha hb hlow hhigh
      refine ⟨?_, hzero⟩
      rw [habscissa]
      exact ⟨Grid.le_trans hkeeps.lo_le (Grid.le_of_lt hleft),
        Grid.le_trans (Grid.le_of_lt hright) hkeeps.le_hi⟩
    · refine .inr ⟨n, a, b, by omega, hreached, by simpa using hlast, ?_⟩
      have hon := bisect_isOn f bracket.lo.isNegative steps bracket.lo.x bracket.hi.x
      exact ⟨congrArg Point.abscissa hpoint, hon, hon.isNaN_iff hf⟩

/-- A jump is never hit, so its bisection ends with the midpoint of a bracket around it. -/
theorem bisect_of_changesSign_jump :
    Bracket.ChangesSign ⟨⟨0, -1⟩, ⟨3, 1⟩⟩ (Graph.cut fun x ↦ x < 1) ∧
      (Graph.cut fun x ↦ x < 1).FiniteValued ∧
      ∃ a b, Bracket.KeepsSigns ⟨⟨0, -1⟩, ⟨3, 1⟩⟩ (Graph.cut fun x ↦ x < 1) a b ∧
        (bisect (Graph.cut fun x ↦ x < 1) true 60 0 3).abscissa = midpoint a b := by
  have hsign : Bracket.ChangesSign ⟨⟨0, -1⟩, ⟨3, 1⟩⟩ (Graph.cut fun x ↦ x < 1) :=
    ⟨by decide +kernel, by decide +kernel, by decide +kernel, Graph.cut_of_below (by decide +kernel),
      Graph.cut_of_not_below (by decide +kernel), by decide +kernel⟩
  have hf := Graph.finiteValued_cut fun x ↦ x < 1
  refine ⟨hsign, hf, ?_⟩
  obtain ⟨hkeeps, ⟨-, hvalue, hzero⟩ | ⟨n, a, b, -, hreached, -, hmid, -⟩⟩ :=
    bisect_of_changesSign hf hsign 60
  · exact absurd hzero (Graph.cut_ne_zero hvalue)
  · exact ⟨a, b, (hkeeps n a b hreached).1, hmid⟩

end Bisection

end CurveSearch
