import CurveSearch.Proofs.Binary64.Midpoint
import CurveSearch.Proofs.Refinement

/-!
# The brackets of a bisection

A bisection goes from bracket to bracket, and each new end lies strictly between the ends before it.
There are finitely many doubles, so with enough steps every bisection comes to a bracket that it
cannot halve. Where the doubles of an end of the brackets are not finite, that is a bracket whose
midpoint has overflowed: any finite midpoint would have been strictly inside.
-/

namespace CurveSearch

open Grid

namespace Bisection

variable {f : Graph} {negative : Bool} {lo hi a b a' b' : Float} {n : ℕ}

theorem abscissa_bisect_of_last (hlast : ∀ a' b', halve f negative a b ≠ .half a' b')
    (steps : ℕ) : (bisect f negative steps a b).abscissa = midpoint a b := by
  cases steps with
  | zero => rfl
  | succ steps =>
      rw [bisect]
      rcases halve_cases f negative a b with hstep | ⟨y, -, hstep⟩ | ⟨a', b', hstep⟩
      · rw [hstep]
        rfl
      · rw [hstep]
      · exact absurd hstep (hlast a' b')

/-- The brackets that a bisection comes to, with the number of steps it takes. -/
inductive Reached (f : Graph) (negative : Bool) (lo hi : Float) : ℕ → Float → Float → Prop
  | start : Reached f negative lo hi 0 lo hi
  | step {n : ℕ} {a b a' b' : Float} : Reached f negative lo hi n a b →
      halve f negative a b = .half a' b' → Reached f negative lo hi (n + 1) a' b'

namespace Reached

theorem bisect_eq (h : Reached f negative lo hi n a b) (steps : ℕ) :
    bisect f negative (n + steps) lo hi = bisect f negative steps a b := by
  induction h generalizing steps with
  | start => rw [Nat.zero_add]
  | step _ hhalf ih => rw [Nat.add_right_comm, Nat.add_assoc, ih (steps + 1), bisect, hhalf]

theorem ordered (hlo : lo.isFinite) (hhi : hi.isFinite) (hlt : lo < hi)
    (h : Reached f negative lo hi n a b) : Between lo hi a ∧ Between lo hi b ∧ a < b := by
  induction h with
  | start =>
      have hle := Grid.le_of_lt hlt
      exact ⟨⟨Grid.le_refl (isNaN_of_isFinite hlo), hle⟩,
        ⟨hle, Grid.le_refl (isNaN_of_isFinite hhi)⟩, hlt⟩
  | @step n a b a' b' _ hhalf ih =>
      obtain ⟨ha, hb, -⟩ := ih
      have hinside := inside_of_half (ha.isFinite hlo hhi) (hb.isFinite hlo hhi) hhalf
      obtain ⟨ha', hb'⟩ := half_between hlo hhi ha hb hhalf
      refine ⟨ha', hb', ?_⟩
      rcases ends_of_half hhalf with ⟨rfl, rfl⟩ | ⟨rfl, rfl⟩
      · exact hinside.2
      · exact hinside.1

end Reached

/-- The doubles strictly inside a bracket become fewer with each step. -/
theorem ncard_inside_lt (ha : a.isFinite) (hb : b.isFinite)
    (h : halve f negative a b = .half a' b') :
    {x : Float | a' < x ∧ x < b'}.ncard < {x : Float | a < x ∧ x < b}.ncard := by
  have hfinite := finite_float
  obtain ⟨hlow, hhigh⟩ := inside_of_half ha hb h
  have hends := ends_of_half h
  refine Set.ncard_lt_ncard ⟨fun x hx ↦ ?_, fun hsub ↦ ?_⟩ (Set.toFinite _)
  · rcases hends with ⟨rfl, rfl⟩ | ⟨rfl, rfl⟩
    · exact ⟨Grid.lt_of_lt_of_le hlow (Grid.le_of_lt hx.1), hx.2⟩
    · exact ⟨hx.1, Grid.lt_of_lt_of_le hx.2 (Grid.le_of_lt hhigh)⟩
  · obtain ⟨hleft, hright⟩ := hsub ⟨hlow, hhigh⟩
    rcases hends with ⟨rfl, rfl⟩ | ⟨rfl, rfl⟩
    · exact Grid.lt_asymm hleft hleft
    · exact Grid.lt_asymm hright hright

theorem exists_reached_last (f : Graph) (negative : Bool) (hlo : lo.isFinite) (hhi : hi.isFinite)
    (hlt : lo < hi) :
    ∃ n a b, Reached f negative lo hi n a b ∧ ∀ a' b', halve f negative a b ≠ .half a' b' := by
  suffices h : ∀ k n a b, Reached f negative lo hi n a b → {x : Float | a < x ∧ x < b}.ncard = k →
      ∃ n a b, Reached f negative lo hi n a b ∧ ∀ a' b', halve f negative a b ≠ .half a' b' from
    h _ 0 lo hi .start rfl
  intro k
  induction k using Nat.strong_induction_on with
  | _ k ih =>
      intro n a b hreached hk
      by_cases hlast : ∀ a' b', halve f negative a b ≠ .half a' b'
      · exact ⟨n, a, b, hreached, hlast⟩
      · push Not at hlast
        obtain ⟨a', b', hhalf⟩ := hlast
        obtain ⟨ha, hb, -⟩ := hreached.ordered hlo hhi hlt
        have hfewer := ncard_inside_lt (ha.isFinite hlo hhi) (hb.isFinite hlo hhi) hhalf
        exact ih _ (hk ▸ hfewer) (n + 1) a' b' (hreached.step hhalf) rfl

/-! ## Brackets whose midpoints overflow -/

theorem overflow_cases (ha : a.isFinite) (hb : b.isFinite) (hab : a < b)
    (hover : ¬ ((a + a).isFinite ∧ (b + b).isFinite)) :
    limit / 2 ≤ position b ∨ position a ≤ -(limit / 2) := by
  obtain ⟨-, -, hlt⟩ := lt_iff.mp hab
  rw [isFinite_add_self_iff ha, isFinite_add_self_iff hb, abs_lt, abs_lt] at hover
  by_contra h
  rw [not_or, not_le, not_le] at h
  exact hover ⟨⟨h.2, hlt.trans h.1⟩, h.2.trans hlt, h.1⟩

/-- Where the double of an end overflows, the midpoint is strictly inside or infinite. -/
theorem midpoint_inside (ha : a.isFinite) (hb : b.isFinite) (hab : a < b)
    (hover : ¬ ((a + a).isFinite ∧ (b + b).isFinite)) (hfin : (midpoint a b).isFinite) :
    a < midpoint a b ∧ midpoint a b < b := by
  have hsumfin := (isFinite_of_mul hfin).2
  have hsum := isNearest_add ha hb
  have hlt := abs_position_lt hsumfin
  have hround : position (a + b) = Grid.round (position a + position b) := by
    rw [hsum.position_eq]
    apply nearest_eq_round
    rwa [← hsum.position_eq]
  have hmid := isNearest_mul isFinite_half hsumfin
  have hmideq : position (midpoint a b) = nearest (1 / 2 * position (a + b)) := by
    rw [← position_half]
    exact hmid.position_eq
  have hinside : position a < nearest (1 / 2 * position (a + b)) ∧
      nearest (1 / 2 * position (a + b)) < position b := by
    have hgrid := onGrid_position (a + b)
    obtain ⟨hlow, -⟩ := abs_lt.mp (abs_position_lt ha)
    obtain ⟨-, hhigh⟩ := abs_lt.mp (abs_position_lt hb)
    rcases overflow_cases ha hb hab hover with hbig | hbig
    · exact nearest_half_inside hgrid hround hlt hlow hbig
    · -- The negated numbers are the same case.
      have hneg : -position (a + b) = Grid.round (-position b + -position a) := by
        rw [hround, ← round_neg, neg_add_rev]
      have hlt' : |-position (a + b)| < limit := (abs_neg _).trans_lt hlt
      have hbig' : limit / 2 ≤ -position a := by linarith
      obtain ⟨hleft, hright⟩ := nearest_half_inside hgrid.neg hneg hlt' (neg_lt_neg hhigh) hbig'
      rw [mul_neg, nearest_neg] at hleft hright
      exact ⟨neg_lt_neg_iff.mp hright, neg_lt_neg_iff.mp hleft⟩
  rw [← hmideq] at hinside
  exact ⟨lt_iff.mpr ⟨isNaN_of_isFinite ha, hmid.isNaN_eq, hinside.1⟩,
    lt_iff.mpr ⟨hmid.isNaN_eq, isNaN_of_isFinite hb, hinside.2⟩⟩

end Bisection

end CurveSearch
