import CurveSearch.Proofs.Binary64.Opposite
import CurveSearch.Proofs.Expr.Evaluation
import CurveSearch.Proofs.RootValue

/-!
# Intersections as roots

An intersection is a root of a difference, and nothing is lost in between: over a root that is found
the difference has a value, so both graphs have one, and the search never comes to the case that the
first graph has none. Where the second graph is the axis, the difference is the first graph itself,
bit for bit, and intersections are roots.
-/

namespace CurveSearch

open Grid

variable {f g : Graph} {w : Window} {tol : Tolerances} {p q : Point}

/-- Whether two searches agree on the place: both find a point or neither does, and the points that
they find have one abscissa. -/
structure Point.SamePlace (p q : Point) : Prop where
  isFound_iff : p.isFound ↔ q.isFound
  abscissa_eq : p.isFound → p.abscissa = q.abscissa

theorem Point.samePlace_of_not_isFound (hp : ¬ p.isFound) (hq : ¬ q.isFound) : p.SamePlace q :=
  ⟨iff_of_false hp hq, fun h ↦ absurd h hp⟩

theorem Point.samePlace_of_abscissa_eq (h : p.abscissa = q.abscissa) : p.SamePlace q where
  isFound_iff := by
    unfold isFound
    rw [h]
  abscissa_eq _ := h

theorem Point.SamePlace.symm (h : p.SamePlace q) : q.SamePlace p where
  isFound_iff := h.isFound_iff.symm
  abscissa_eq hq := (h.abscissa_eq (h.isFound_iff.mpr hq)).symm

theorem Point.SamePlace.trans {r : Point} (h : p.SamePlace q) (h' : q.SamePlace r) :
    p.SamePlace r where
  isFound_iff := h.isFound_iff.trans h'.isFound_iff
  abscissa_eq hp := (h.abscissa_eq hp).trans (h'.abscissa_eq (h.isFound_iff.mp hp))

/-! ## The difference to the axis -/

theorem Graph.difference_axis (hf : f.FiniteValued) : f.difference (const 0) = f := by
  funext x
  unfold difference
  cases hx : f x with
  | none => rfl
  | some y =>
      have hy := hf x y hx
      change (if (y - 0).isFinite then some (y - 0) else none) = some y
      rw [Grid.sub_zero, if_pos hy]

theorem Expr.graph_zero (symbol : String) (context : Context) (preferences : Preferences) :
    (number 0).graph symbol context preferences = Graph.const 0 := rfl

/-! ## Roots of the difference -/

namespace Search

theorem exists_value_of_root_difference (h : (root (f.difference g) w tol).isFound) :
    ∃ y, f (root (f.difference g) w tol).abscissa = some y := by
  obtain ⟨d, hd, -⟩ := exists_value_of_root_found h
  obtain ⟨a, -, ha, -⟩ := Graph.difference_eq_some.mp hd
  exact ⟨a, ha⟩

variable (f g w tol) in
theorem intersection_cases :
    ((root (f.difference g) w tol).isFound ∧
      ∃ y, f (root (f.difference g) w tol).abscissa = some y ∧
        intersection f g w tol = ⟨(root (f.difference g) w tol).abscissa, y⟩) ∨
    (¬ (root (f.difference g) w tol).isFound ∧ intersection f g w tol = .nowhere) := by
  by_cases hroot : (root (f.difference g) w tol).isFound
  · obtain ⟨y, hy⟩ := exists_value_of_root_difference hroot
    refine .inl ⟨hroot, y, hy, ?_⟩
    unfold intersection
    simp only
    rw [if_pos hroot, hy]
  · exact .inr ⟨hroot, if_neg hroot⟩

variable (f g w tol) in
theorem intersection_samePlace_root :
    (intersection f g w tol).SamePlace (root (f.difference g) w tol) := by
  rcases intersection_cases f g w tol with ⟨-, y, -, heq⟩ | ⟨hroot, heq⟩ <;> rw [heq]
  · exact Point.samePlace_of_abscissa_eq rfl
  · exact Point.samePlace_of_not_isFound Point.not_isFound_nowhere hroot

/-- The intersection of two graphs is the root of their difference, with the value of the first
graph, which is never missing. So the intersections of an expression with the number zero are the
roots of the expression. -/
theorem intersection_root_difference (f g : Graph) (e : Expr) (symbol : String)
    (context : Context) (preferences : Preferences) (w : Window) (tol : Tolerances) :
    (((root (f.difference g) w tol).isFound ∧
        ∃ y, f (root (f.difference g) w tol).abscissa = some y ∧
          intersection f g w tol = ⟨(root (f.difference g) w tol).abscissa, y⟩) ∨
      (¬ (root (f.difference g) w tol).isFound ∧ intersection f g w tol = .nowhere)) ∧
    (intersection f g w tol).SamePlace (root (f.difference g) w tol) ∧
    (intersection (e.graph symbol context preferences)
        ((Expr.number 0).graph symbol context preferences) w tol).SamePlace
      (root (e.graph symbol context preferences) w tol) := by
  refine ⟨intersection_cases f g w tol, intersection_samePlace_root f g w tol, ?_⟩
  have hplace := intersection_samePlace_root (e.graph symbol context preferences)
    ((Expr.number 0).graph symbol context preferences) w tol
  rwa [Expr.graph_zero,
    Graph.difference_axis (e.finiteValued_graph symbol context preferences)] at hplace

end Search

end CurveSearch
