import CurveSearch.Proofs.Expr.Evaluation

/-!
# Where evaluation fails

A node fails of itself if its operands have real values and it makes none of them. What a tree
evaluates to is decided by the nodes that fail so, wherever they are: one that is undefined makes the
tree undefined, and if there is none, one that leaves the real line makes the tree leave it. Only a
tree without either has a real value, which is then finite.
-/

namespace CurveSearch

/-! ## Values -/

namespace Value

variable {a b w : Value} {f : Float → Value} {op : Float → Float → Value}

theorem exists_eq_real_iff : (∃ v, w = .real v) ↔ w ≠ .undefined ∧ w ≠ .nonReal := by
  cases w <;> simp

theorem map_eq_undefined :
    a.map f = .undefined ↔ a = .undefined ∨ ∃ p, a = .real p ∧ f p = .undefined := by
  cases a <;> simp [map]

theorem map₂_eq_undefined :
    a.map₂ op b = .undefined ↔
      a = .undefined ∨ b = .undefined ∨ ∃ p q, a = .real p ∧ b = .real q ∧ op p q = .undefined := by
  cases a <;> cases b <;> simp [map₂]

def IsProper (w : Value) : Prop := ∀ v, w = .real v → v.isFinite

theorem isProper_ofFloat (x : Float) : (ofFloat x).IsProper := by
  intro v h
  obtain ⟨hfin, rfl⟩ := eq_of_ofFloat_eq_real h
  exact hfin

theorem isProper_undefined : undefined.IsProper := by
  rintro v ⟨⟩

theorem isProper_nonReal : nonReal.IsProper := by
  rintro v ⟨⟩

end Value

open Value

theorem isProper_power (p q : Float) : (power p q).IsProper := by
  unfold power
  split_ifs
  · exact isProper_undefined
  · exact isProper_nonReal
  · exact isProper_ofFloat _

theorem isProper_logarithm (log : Float → Float) (v : Float) : (logarithm log v).IsProper := by
  unfold logarithm
  split_ifs
  · exact isProper_nonReal
  · exact isProper_undefined
  · exact isProper_ofFloat _

theorem BinaryOp.isProper_apply (op : BinaryOp) (p q : Float) : (op.apply p q).IsProper := by
  cases op with
  | div =>
      rw [apply]
      split_ifs
      · exact isProper_undefined
      · exact isProper_ofFloat _
  | pow => exact isProper_power p q
  | _ => exact isProper_ofFloat _

theorem Elementary.isProper_apply (unit : AngleUnit) (f : Elementary) (v : Float) :
    (f.apply unit v).IsProper := by
  cases f with
  | asin | acos =>
      rw [apply]
      split_ifs
      · exact isProper_ofFloat _
      · exact isProper_nonReal
  | sqrt =>
      rw [apply]
      split_ifs
      · exact isProper_nonReal
      · exact isProper_ofFloat _
  | ln | log => exact isProper_logarithm _ v
  | _ => exact isProper_ofFloat _

namespace Expr

variable {e : Expr} {s : Scope}

/-! ## Nodes -/

/-- The nodes of a tree, each with the tree below it. -/
def nodes : Expr → List Expr
  | .number v => [.number v]
  | .symbol name => [.symbol name]
  | .neg a => .neg a :: a.nodes
  | .binary op a b => .binary op a b :: (a.nodes ++ b.nodes)
  | .call f a => .call f a :: a.nodes

/-- Whether all operands of the root of a tree are real and the root makes a value of them. -/
def Yields (s : Scope) : Expr → Value → Prop
  | .number v, w => .ofFloat v = w
  | .symbol name, w => s.value name = w
  | .neg a, w => ∃ p, a.eval s = .real p ∧ .real (-p) = w
  | .binary op a b, w => ∃ p q, a.eval s = .real p ∧ b.eval s = .real q ∧ op.apply p q = w
  | .call f a, w => ∃ p, a.eval s = .real p ∧ f.apply s.unit p = w

theorem isProper_eval (e : Expr) (s : Scope) : (e.eval s).IsProper := by
  induction e with
  | number v => exact isProper_ofFloat v
  | symbol name =>
      rw [eval, Scope.value]
      split_ifs
      · exact isProper_ofFloat _
      · split
        · exact isProper_ofFloat _
        · exact isProper_undefined
  | neg a ih =>
      intro v h
      obtain ⟨p, hp, hv⟩ := map_eq_real.mp h
      rw [← Value.real.inj hv, Grid.isFinite_neg_float]
      exact ih p hp
  | binary op a b _ _ =>
      intro v h
      obtain ⟨p, q, -, -, hv⟩ := map₂_eq_real.mp h
      exact op.isProper_apply p q v hv
  | call f a _ =>
      intro v h
      obtain ⟨p, -, hv⟩ := map_eq_real.mp h
      exact f.isProper_apply s.unit p v hv

/-! ## Failing nodes -/

theorem exists_mem_nodes_binary {op : BinaryOp} {a b : Expr} {P : Expr → Prop} :
    (∃ n ∈ (binary op a b).nodes, P n) ↔
      P (binary op a b) ∨ (∃ n ∈ a.nodes, P n) ∨ ∃ n ∈ b.nodes, P n := by
  simp only [nodes, List.exists_mem_cons_iff, List.mem_append, or_and_right, exists_or]

theorem eval_eq_undefined_iff :
    e.eval s = .undefined ↔ ∃ n ∈ e.nodes, n.Yields s .undefined := by
  induction e with
  | number v =>
      simp only [nodes, List.mem_singleton, exists_eq_left]
      rfl
  | symbol name =>
      simp only [nodes, List.mem_singleton, exists_eq_left]
      rfl
  | neg a ih =>
      rw [eval, map_eq_undefined, ih, nodes, List.exists_mem_cons_iff, or_comm]
      rfl
  | binary op a b iha ihb =>
      rw [eval, map₂_eq_undefined, iha, ihb, exists_mem_nodes_binary, ← or_assoc, or_comm]
      rfl
  | call f a ih =>
      rw [eval, map_eq_undefined, ih, nodes, List.exists_mem_cons_iff, or_comm]
      rfl

/-- Whether the operands of the root are real and it makes no real value of them. -/
def Fails (s : Scope) (n : Expr) : Prop := n.Yields s .undefined ∨ n.Yields s .nonReal

theorem exists_eval_eq_real_iff :
    (∃ v, e.eval s = .real v) ↔ ∀ n ∈ e.nodes, ¬ n.Fails s := by
  induction e with
  | number v =>
      rw [nodes, List.forall_mem_singleton, exists_eq_real_iff, ← not_or]
      rfl
  | symbol name =>
      rw [nodes, List.forall_mem_singleton, exists_eq_real_iff, ← not_or]
      rfl
  | neg a ih =>
      have hroot : ¬ (neg a).Fails s := by
        rintro (⟨p, -, h⟩ | ⟨p, -, h⟩) <;> cases h
      rw [nodes, List.forall_mem_cons, and_iff_right hroot, ← ih]
      simp only [eval, map_eq_real]
      constructor
      · rintro ⟨v, p, hp, -⟩
        exact ⟨p, hp⟩
      · rintro ⟨p, hp⟩
        exact ⟨-p, p, hp, rfl⟩
  | binary op a b iha ihb =>
      rw [nodes, List.forall_mem_cons, List.forall_mem_append, ← iha, ← ihb]
      simp only [eval, map₂_eq_real]
      constructor
      · rintro ⟨v, p, q, hp, hq, hv⟩
        refine ⟨?_, ⟨p, hp⟩, ⟨q, hq⟩⟩
        rintro (⟨p', q', hp', hq', h⟩ | ⟨p', q', hp', hq', h⟩)
        all_goals
          cases hp.symm.trans hp'
          cases hq.symm.trans hq'
          cases hv.symm.trans h
      · rintro ⟨hroot, ⟨p, hp⟩, ⟨q, hq⟩⟩
        obtain ⟨v, hv⟩ := exists_eq_real_iff.mpr
          ⟨fun h ↦ hroot (.inl ⟨p, q, hp, hq, h⟩), fun h ↦ hroot (.inr ⟨p, q, hp, hq, h⟩)⟩
        exact ⟨v, p, q, hp, hq, hv⟩
  | call f a ih =>
      rw [nodes, List.forall_mem_cons, ← ih]
      simp only [eval, map_eq_real]
      constructor
      · rintro ⟨v, p, hp, hv⟩
        refine ⟨?_, ⟨p, hp⟩⟩
        rintro (⟨p', hp', h⟩ | ⟨p', hp', h⟩)
        all_goals
          cases hp.symm.trans hp'
          cases hv.symm.trans h
      · rintro ⟨hroot, ⟨p, hp⟩⟩
        obtain ⟨v, hv⟩ := exists_eq_real_iff.mpr
          ⟨fun h ↦ hroot (.inl ⟨p, hp, h⟩), fun h ↦ hroot (.inr ⟨p, hp, h⟩)⟩
        exact ⟨v, p, hp, hv⟩

theorem eval_eq_nonReal_iff :
    e.eval s = .nonReal ↔
      (¬ ∃ n ∈ e.nodes, n.Yields s .undefined) ∧ ∃ n ∈ e.nodes, n.Yields s .nonReal := by
  rw [← eval_eq_undefined_iff]
  constructor
  · intro h
    have hdefined : e.eval s ≠ .undefined := by
      rw [h]
      exact Value.noConfusion
    refine ⟨hdefined, ?_⟩
    by_contra hnone
    have hreal : ∃ v, e.eval s = .real v := by
      refine exists_eval_eq_real_iff.mpr fun n hn hfails ↦ ?_
      rcases hfails with hfails | hfails
      · exact hdefined (eval_eq_undefined_iff.mpr ⟨n, hn, hfails⟩)
      · exact hnone ⟨n, hn, hfails⟩
    obtain ⟨v, hv⟩ := hreal
    cases h.symm.trans hv
  · rintro ⟨hundefined, n, hn, hfails⟩
    cases hvalue : e.eval s with
    | real v => exact absurd (.inr hfails) (exists_eval_eq_real_iff.mp ⟨v, hvalue⟩ n hn)
    | nonReal => rfl
    | undefined => exact absurd hvalue hundefined

/-- A tree is undefined if and only if one of its nodes is undefined of itself. It leaves the real
line if and only if one of its nodes does and none is undefined of itself. Else its value is real and
finite. -/
theorem eval_of_nodes (e : Expr) (s : Scope) :
    (e.eval s = .undefined ↔ ∃ n ∈ e.nodes, n.Yields s .undefined) ∧
    (e.eval s = .nonReal ↔
      (¬ ∃ n ∈ e.nodes, n.Yields s .undefined) ∧ ∃ n ∈ e.nodes, n.Yields s .nonReal) ∧
    ((∃ v, v.isFinite ∧ e.eval s = .real v) ↔ ∀ n ∈ e.nodes, ¬ n.Fails s) ∧
    ∀ v, e.eval s = .real v → v.isFinite := by
  have hfinite : ∀ v, e.eval s = .real v → v.isFinite := isProper_eval e s
  refine ⟨eval_eq_undefined_iff, eval_eq_nonReal_iff, ?_, hfinite⟩
  rw [← exists_eval_eq_real_iff]
  constructor
  · rintro ⟨v, -, h⟩
    exact ⟨v, h⟩
  · rintro ⟨v, h⟩
    exact ⟨v, hfinite v h, h⟩

/-- A root of a number below zero. -/
def imaginary : Expr := .call .sqrt (.neg (.number 1))

/-- A quotient by zero. -/
def quotient : Expr := .binary .div (.number 1) (.number 0)

/-- A sum is undefined if it is undefined on the right, though it leaves the real line on the left.
Without the quotient it leaves the real line, and without the root as well it is finite. -/
theorem eval_of_nodes_sums :
    (binary .add imaginary quotient).eval ⟨"x", 0, .empty, .degree⟩ = .undefined ∧
    (binary .add imaginary (.symbol "x")).eval ⟨"x", 0, .empty, .degree⟩ = .nonReal ∧
    (binary .add (.number 1) (.symbol "x")).eval ⟨"x", 0, .empty, .degree⟩ = .real (1 + 0) ∧
    (1 + 0 : Float).isFinite := by
  have hroot : imaginary.Yields ⟨"x", 0, .empty, .degree⟩ .nonReal := ⟨-1, rfl, rfl⟩
  have hquotient : quotient.Yields ⟨"x", 0, .empty, .degree⟩ .undefined := ⟨1, 0, rfl, rfl, rfl⟩
  have hsum : (binary .add (.number 1) (.symbol "x")).eval ⟨"x", 0, .empty, .degree⟩ =
      .real (1 + 0) := rfl
  obtain ⟨hundefined, -⟩ :=
    eval_of_nodes (binary .add imaginary quotient) ⟨"x", 0, .empty, .degree⟩
  obtain ⟨-, hnonReal, -⟩ :=
    eval_of_nodes (binary .add imaginary (.symbol "x")) ⟨"x", 0, .empty, .degree⟩
  obtain ⟨-, -, -, hfinite⟩ :=
    eval_of_nodes (binary .add (.number 1) (.symbol "x")) ⟨"x", 0, .empty, .degree⟩
  refine ⟨hundefined.mpr ⟨quotient, ?_, hquotient⟩, hnonReal.mpr ⟨?_, imaginary, ?_, hroot⟩, hsum,
    hfinite _ hsum⟩
  · simp [nodes, quotient]
  · rw [← eval_eq_undefined_iff]
    exact Value.noConfusion
  · simp [nodes, imaginary]

end Expr

end CurveSearch
