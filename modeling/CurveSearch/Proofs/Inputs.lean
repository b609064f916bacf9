import CurveSearch.CommandLine.Checks
import CurveSearch.Configuration
import CurveSearch.Proofs.Cursor
import CurveSearch.Search

/-!
# Checked inputs

What a search may rely on: a window that the checks before it accept, tolerances without a fault,
and graphs whose values are finite.
-/

namespace CurveSearch

open Grid

theorem CommandLine.checkWindow_eq_ok {w : Window} {limit : ℕ} :
    checkWindow w limit = .ok () ↔ w.isValid ∧ w.sampleCount ≤ limit := by
  rw [Window.isValid_iff, checkWindow]
  cases w.start.isFinite <;> cases w.max.isFinite <;> cases w.step.isFinite <;>
    by_cases hstep : 0 < w.step <;> simp [hstep]

namespace Configuration

theorem isNonnegative_iff {v : Float} : isNonnegative v ↔ v.isFinite ∧ 0 ≤ position v := by
  unfold isNonnegative
  simp only [Bool.and_eq_true, decide_eq_true_eq]
  refine and_congr_right fun hfin ↦ le_iff.trans ?_
  simp only [isNaN_of_isFinite hfin, isNaN_of_isFinite isFinite_zero, position_zero, true_and]

theorem le_of_isNonnegative {v : Float} (h : isNonnegative v) : 0 ≤ v := by
  obtain ⟨hfin, hpos⟩ := isNonnegative_iff.mp h
  exact le_iff.mpr ⟨rfl, isNaN_of_isFinite hfin, position_zero ▸ hpos⟩

theorem fault?_eq_none {tol : Tolerances} :
    fault? tol = none ↔
      (isNonnegative tol.eps ∧ isNonnegative tol.zeroEps ∧ isNonnegative tol.snapEps ∧
        isNonnegative tol.maxValue) ∧ tol.maxIterations ≠ 0 ∧ 2 ≤ tol.tailWindow := by
  unfold fault?
  simp only
  split
  · next field v hfind =>
      refine iff_of_false (fun h ↦ nomatch h) ?_
      rintro ⟨⟨heps, hzero, hsnap, hmax⟩, -⟩
      have hv := List.find?_some hfind
      have hmem := List.mem_of_find?_eq_some hfind
      simp only [List.mem_cons, Prod.mk.injEq, List.not_mem_nil, or_false] at hmem
      rcases hmem with ⟨-, rfl⟩ | ⟨-, rfl⟩ | ⟨-, rfl⟩ | ⟨-, rfl⟩ <;> simp_all
  · next hfind =>
      rw [List.find?_eq_none] at hfind
      simp only [List.mem_cons, List.not_mem_nil, or_false, forall_eq_or_imp, forall_eq,
        Bool.not_eq_true', Bool.not_eq_false] at hfind
      split_ifs with hsteps htail
      · exact iff_of_false (fun h ↦ nomatch h) (fun h ↦ h.2.1 hsteps)
      · exact iff_of_false (fun h ↦ nomatch h) (fun h ↦ not_le.mpr htail h.2.2)
      · exact iff_of_true rfl ⟨hfind, hsteps, by omega⟩

theorem fault?_default : fault? {} = none := fault?_eq_none.mpr (by decide +kernel)

theorem fault?_maxIterations {n : ℕ} (hn : n ≠ 0) : fault? { maxIterations := n } = none := by
  obtain ⟨hnumbers, -, htail⟩ := fault?_eq_none.mp fault?_default
  exact fault?_eq_none.mpr ⟨hnumbers, hn, htail⟩

end Configuration

def Graph.FiniteValued (f : Graph) : Prop := ∀ x y, f x = some y → y.isFinite

def Graph.const (c : Float) : Graph := fun _ ↦ some c

theorem Graph.const_eq {c : Float} (x : Float) : const c x = some c := rfl

theorem Graph.finiteValued_const {c : Float} (hc : c.isFinite) : (const c).FiniteValued := by
  rintro x y ⟨⟩
  exact hc

theorem Graph.difference_eq_some {f g : Graph} {x d : Float} :
    f.difference g x = some d ↔
      ∃ a b, f x = some a ∧ g x = some b ∧ d = a - b ∧ d.isFinite := by
  unfold difference
  cases f x <;> cases g x <;> simp only [Option.bind_eq_bind, Option.bind_some, Option.bind_none]
  · simp
  · simp
  · simp
  · next a b =>
      split_ifs with hfin
      · simp only [Option.some.injEq]
        constructor
        · rintro rfl
          exact ⟨a, b, rfl, rfl, rfl, hfin⟩
        · rintro ⟨a, b, rfl, rfl, rfl, -⟩
          rfl
      · refine iff_of_false (fun h ↦ nomatch h) ?_
        rintro ⟨a', b', ha, hb, rfl, h⟩
        cases ha
        cases hb
        exact hfin h

theorem Graph.finiteValued_difference (f g : Graph) : (f.difference g).FiniteValued := by
  intro x d hd
  obtain ⟨-, -, -, -, -, hfin⟩ := difference_eq_some.mp hd
  exact hfin

/-- Whether all graphs that a search looks at beside its own have finite values. -/
def Target.FiniteValued : Target → Prop
  | .intersection other => other.FiniteValued
  | _ => True

end CurveSearch
