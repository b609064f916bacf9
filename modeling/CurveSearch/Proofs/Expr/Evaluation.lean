import CurveSearch.Expr.Evaluation
import CurveSearch.Proofs.Inputs

/-!
# Graphs of expressions

An expression that mentions the search symbol has no value where the symbol stands for no finite
number: an undefined operand makes every node above it undefined. An expression that does not
mention the symbol has the same value everywhere. So the graph of an expression is constant, or it
has gaps at the infinities and at NaN.
-/

namespace CurveSearch

namespace Expr

def Mentions (name : String) : Expr → Prop
  | .number _ => False
  | .symbol s => s = name
  | .neg a => a.Mentions name
  | .binary _ a b => a.Mentions name ∨ b.Mentions name
  | .call _ a => a.Mentions name

theorem eval_eq_undefined_of_mentions {e : Expr} {s : Scope} (hx : ¬ s.abscissa.isFinite)
    (h : e.Mentions s.symbol) : e.eval s = .undefined := by
  induction e with
  | number v => exact h.elim
  | symbol name =>
      have hname : name = s.symbol := h
      rw [eval, Scope.value, if_pos hname, Value.ofFloat, if_neg hx]
  | neg a ih =>
      rw [eval, ih h]
      rfl
  | binary op a b iha ihb =>
      rw [eval]
      rcases h with ha | hb
      · rw [iha ha]
        rfl
      · rw [ihb hb]
        cases a.eval s <;> rfl
  | call f a ih =>
      rw [eval, ih h]
      rfl

theorem eval_eq_of_not_mentions {e : Expr} {s : Scope} (h : ¬ e.Mentions s.symbol) (x : Float) :
    e.eval { s with abscissa := x } = e.eval s := by
  induction e with
  | number v => rfl
  | symbol name =>
      have hname : name ≠ s.symbol := h
      simp only [eval, Scope.value, if_neg hname]
  | neg a ih => simp only [eval, ih h]
  | binary op a b iha ihb =>
      simp only [Mentions, not_or] at h
      simp only [eval, iha h.1, ihb h.2]
  | call f a ih => simp only [eval, ih h]

end Expr

/-- Whether a graph is constant or has gaps off the finite numbers. -/
def Graph.IsTame (f : Graph) : Prop :=
  (∃ c, f = const c) ∨ ∀ x : Float, ¬ x.isFinite → f x = none

theorem Value.isFinite_of_finite? {v : Value} {y : Float} (h : v.finite? = some y) :
    y.isFinite := by
  cases v with
  | real x =>
      simp only [finite?] at h
      split_ifs at h with hx
      cases h
      exact hx
  | _ => exact nomatch h

theorem Value.eq_real_of_finite? {v : Value} {y : Float} (h : v.finite? = some y) :
    v = .real y := by
  cases v with
  | real x =>
      simp only [finite?] at h
      split_ifs at h
      rw [Option.some.inj h]
  | _ => exact nomatch h

theorem Value.eq_of_ofFloat_eq_real {v y : Float} (h : ofFloat v = .real y) :
    v.isFinite ∧ v = y := by
  unfold ofFloat at h
  split_ifs at h with hv
  exact ⟨hv, Value.real.inj h⟩

theorem Value.map_eq_real {f : Float → Value} {a : Value} {y : Float} :
    a.map f = .real y ↔ ∃ p, a = .real p ∧ f p = .real y := by
  cases a <;> simp [map]

theorem Value.map₂_eq_real {op : Float → Float → Value} {a b : Value} {y : Float} :
    a.map₂ op b = .real y ↔ ∃ p q, a = .real p ∧ b = .real q ∧ op p q = .real y := by
  cases a <;> cases b <;> simp [map₂]

theorem Expr.finiteValued_graph (e : Expr) (symbol : String) (context : Context)
    (preferences : Preferences) : (e.graph symbol context preferences).FiniteValued := by
  intro x y h
  exact Value.isFinite_of_finite? h

/-- The graph of an expression in the name `a`, where no other name is bound. -/
def Expr.plot (e : Expr) : Graph := e.graph "a" .empty {}

theorem Expr.isTame_graph (e : Expr) (symbol : String) (context : Context)
    (preferences : Preferences) : (e.graph symbol context preferences).IsTame := by
  by_cases h : e.Mentions symbol
  · apply Or.inr
    intro x hx
    have heval := eval_eq_undefined_of_mentions
      (s := ⟨symbol, x, context, preferences.angleUnit⟩) hx h
    simp only [graph]
    rw [heval]
    rfl
  · have hconst : ∀ x x', e.graph symbol context preferences x =
        e.graph symbol context preferences x' := by
      intro x x'
      have heval := eval_eq_of_not_mentions (s := ⟨symbol, x', context, preferences.angleUnit⟩) h x
      simp only [graph]
      rw [← heval]
    by_cases hvalue : ∃ x c, e.graph symbol context preferences x = some c
    · obtain ⟨x, c, hc⟩ := hvalue
      apply Or.inl
      refine ⟨c, funext fun x' ↦ ?_⟩
      rw [hconst x' x, hc, Graph.const_eq]
    · apply Or.inr
      intro x _
      cases hx : e.graph symbol context preferences x with
      | none => rfl
      | some c => exact absurd ⟨x, c, hx⟩ hvalue

end CurveSearch
