import CurveSearch.Proofs.Expr.Symbols
import CurveSearch.Search

/-!
# What an expression depends on

The value of a tree depends on the numbers that its own names stand for and, if it calls an angular
function, on the unit of angles. Nothing else that a context holds reaches a value, nor what it binds
the search symbol to. Searches see a tree through its graph only, so the same holds of their results.
-/

namespace CurveSearch

/-! ## Angles -/

def Elementary.isAngular : Elementary → Bool
  | .sin | .cos | .tan | .asin | .acos | .atan => true
  | .sqrt | .ln | .log | .exp | .abs => false

theorem Elementary.apply_eq_of_not_isAngular {f : Elementary} (h : ¬ f.isAngular)
    (unit unit' : AngleUnit) : f.apply unit = f.apply unit' := by
  cases f with
  | sin | cos | tan | asin | acos | atan => exact absurd rfl h
  | _ => rfl

def Expr.IsAngleFree (e : Expr) : Prop := ∀ f a, .call f a ∈ e.nodes → ¬ f.isAngular

/-! ## Scopes that agree -/

/-- Whether two scopes give each name of a tree the same number, or none, and its angles the same unit,
if it has any. -/
structure Scope.AgreesOn (s t : Scope) (e : Expr) : Prop where
  names : ∀ name ∈ e.symbols, s.lookup? name = t.lookup? name
  unit : s.unit = t.unit ∨ e.IsAngleFree

namespace Scope.AgreesOn

variable {e a : Expr} {s t : Scope}

theorem mono (h : s.AgreesOn t e) (hsub : ∀ n ∈ a.nodes, n ∈ e.nodes) : s.AgreesOn t a where
  names name hname := h.names name (Expr.mem_symbols.mpr (hsub _ (Expr.mem_symbols.mp hname)))
  unit := h.unit.imp_right fun hfree f b hb ↦ hfree f b (hsub _ hb)

theorem apply_eq {f : Elementary} (h : s.AgreesOn t (.call f a)) :
    f.apply s.unit = f.apply t.unit := by
  rcases h.unit with hunit | hfree
  · rw [hunit]
  · exact Elementary.apply_eq_of_not_isAngular (hfree f a List.mem_cons_self) _ _

theorem eval_eq (h : s.AgreesOn t e) : e.eval s = e.eval t := by
  induction e with
  | number v => rfl
  | symbol name =>
      have hlookup := h.names name (Expr.mem_symbols.mpr List.mem_cons_self)
      rw [Expr.eval, Expr.eval, Scope.value_eq, Scope.value_eq, hlookup]
  | neg a ih =>
      have ha : s.AgreesOn t a := h.mono fun n hn ↦ List.mem_cons_of_mem _ hn
      rw [Expr.eval, Expr.eval, ih ha]
  | binary op a b iha ihb =>
      have ha : s.AgreesOn t a :=
        h.mono fun n hn ↦ List.mem_cons_of_mem _ (List.mem_append_left _ hn)
      have hb : s.AgreesOn t b :=
        h.mono fun n hn ↦ List.mem_cons_of_mem _ (List.mem_append_right _ hn)
      rw [Expr.eval, Expr.eval, iha ha, ihb hb]
  | call f a ih =>
      have ha : s.AgreesOn t a := h.mono fun n hn ↦ List.mem_cons_of_mem _ hn
      rw [Expr.eval, Expr.eval, ih ha, h.apply_eq]

end Scope.AgreesOn

/-! ## Bindings that do not matter -/

/-- Whether two contexts differ at most in whether and to what they bind one name. -/
def Context.EqExcept (c d : Context) (name : String) : Prop :=
  ∀ other, other ≠ name → c.get? other = d.get? other

theorem Context.eqExcept_bind (c : Context) (name : String) (v : Float) :
    c.EqExcept (c.bind name v) name :=
  fun _ h ↦ (get?_bind_of_ne c v h).symm

section Settings

variable {e : Expr} {symbol name : String} {c d : Context} {x y : Float} {unit unit' : AngleUnit}

theorem Context.EqExcept.agreesOn (h : c.EqExcept d name)
    (hname : name = symbol ∨ name ∉ e.symbols) :
    Scope.AgreesOn ⟨symbol, x, c, unit⟩ ⟨symbol, x, d, unit⟩ e where
  names other hother := by
    unfold Scope.lookup?
    simp only
    split_ifs with hsymbol
    · rfl
    · apply h other
      rintro rfl
      exact hname.elim hsymbol fun hnot ↦ hnot hother
  unit := .inl rfl

/-- To search on one name with another one bound is to search on the other with the first one
bound. -/
theorem Scope.agreesOn_bind_bind (hne : name ≠ symbol) :
    Scope.AgreesOn ⟨symbol, y, c.bind name x, unit⟩ ⟨name, x, c.bind symbol y, unit⟩ e where
  names other _ := by
    unfold Scope.lookup?
    simp only
    split_ifs with hsymbol hname hname
    · exact absurd (hname.symm.trans hsymbol) hne
    · rw [hsymbol, Context.get?_bind_self]
    · rw [hname, Context.get?_bind_self]
    · rw [Context.get?_bind_of_ne c x hname, Context.get?_bind_of_ne c y hsymbol]
  unit := .inl rfl

theorem Scope.agreesOn_bind (hsymbol : symbol ∉ e.symbols) :
    Scope.AgreesOn ⟨symbol, y, c.bind name x, unit⟩ ⟨name, x, c, unit⟩ e where
  names other hother := by
    have hne : other ≠ symbol := fun h ↦ hsymbol (h ▸ hother)
    unfold Scope.lookup?
    simp only
    rw [if_neg hne]
    split_ifs with hname
    · rw [hname, Context.get?_bind_self]
    · exact Context.get?_bind_of_ne c x hname
  unit := .inl rfl

theorem Scope.agreesOn_of_isAngleFree (h : e.IsAngleFree) :
    Scope.AgreesOn ⟨symbol, x, c, unit⟩ ⟨symbol, x, c, unit'⟩ e where
  names _ _ := rfl
  unit := .inr h

end Settings

/-! ## Searches -/

theorem Expr.graph_congr {e : Expr} {symbol : String} {c d : Context} {p q : Preferences}
    (h : ∀ x, Scope.AgreesOn ⟨symbol, x, c, p.angleUnit⟩ ⟨symbol, x, d, q.angleUnit⟩ e) :
    e.graph symbol c p = e.graph symbol d q :=
  funext fun x ↦ congrArg Value.finite? (h x).eval_eq

/-- Whether all searches have the same results on two graphs, and with other graphs to intersect
them with. -/
def Search.SameResults (f f' g g' : Graph) : Prop :=
  ∀ w tol, root f w tol = root f' w tol ∧
    (∀ kind, extremum kind f w tol = extremum kind f' w tol) ∧
    intersection f g w tol = intersection f' g' w tol

theorem Search.sameResults_of_eq {f f' g g' : Graph} (hf : f = f') (hg : g = g') :
    SameResults f f' g g' := by
  subst hf hg
  exact fun _ _ ↦ ⟨rfl, fun _ ↦ rfl, rfl⟩

/-- The value of a tree depends on the numbers of its names and on the unit of its angles. So no
binding of the search symbol, or of a name that the tree does not mention, changes a value or a
result; a name may be bound or searched on; and without angular functions the unit does not matter
either. -/
theorem Expr.eval_depends_on_names (e other : Expr) (symbol : String) :
    (∀ s t, s.AgreesOn t e → e.eval s = e.eval t) ∧
    (∀ name (c d : Context), name = symbol ∨ name ∉ e.symbols → c.EqExcept d name →
      ∀ x unit, e.eval ⟨symbol, x, c, unit⟩ = e.eval ⟨symbol, x, d, unit⟩) ∧
    (∀ name (c d : Context), name = symbol ∨ name ∉ e.symbols ∧ name ∉ other.symbols →
      c.EqExcept d name → ∀ p, Search.SameResults (e.graph symbol c p) (e.graph symbol d p)
        (other.graph symbol c p) (other.graph symbol d p)) ∧
    (∀ name x y (c : Context) unit, name ≠ symbol →
      e.eval ⟨symbol, y, c.bind name x, unit⟩ = e.eval ⟨name, x, c.bind symbol y, unit⟩) ∧
    (∀ name x y (c : Context) unit, symbol ∉ e.symbols →
      e.eval ⟨symbol, y, c.bind name x, unit⟩ = e.eval ⟨name, x, c, unit⟩) ∧
    (e.IsAngleFree → ∀ x c unit unit',
      e.eval ⟨symbol, x, c, unit⟩ = e.eval ⟨symbol, x, c, unit'⟩) ∧
    (e.IsAngleFree → other.IsAngleFree → ∀ c p q,
      Search.SameResults (e.graph symbol c p) (e.graph symbol c q)
        (other.graph symbol c p) (other.graph symbol c q)) := by
  refine ⟨fun s t h ↦ h.eval_eq, fun name c d hname h x unit ↦ (h.agreesOn hname).eval_eq,
    fun name c d hname h p ↦ ?_, fun name x y c unit hne ↦ (Scope.agreesOn_bind_bind hne).eval_eq,
    fun name x y c unit hsymbol ↦ (Scope.agreesOn_bind hsymbol).eval_eq,
    fun hfree x c unit unit' ↦ (Scope.agreesOn_of_isAngleFree hfree).eval_eq,
    fun hfree hfree' c p q ↦ ?_⟩
  · apply Search.sameResults_of_eq
    · exact graph_congr fun x ↦ h.agreesOn (hname.imp_right And.left)
    · exact graph_congr fun x ↦ h.agreesOn (hname.imp_right And.right)
  · apply Search.sameResults_of_eq
    · exact graph_congr fun x ↦ Scope.agreesOn_of_isAngleFree hfree
    · exact graph_congr fun x ↦ Scope.agreesOn_of_isAngleFree hfree'

theorem Expr.isAngleFree_product : product.IsAngleFree := by
  intro f a h
  simp [product, nodes] at h

/-- The double of a number does not depend on what the name of the number is bound to, on another
name or on the unit of angles, and the factor may be searched on as well. -/
theorem Expr.eval_depends_on_names_product :
    (Context.doubling.EqExcept (Context.doubling.bind "a" 100) "a" ∧ "k" ≠ "a" ∧
      "z" ∉ product.symbols ∧ product.IsAngleFree) ∧
    product.eval ⟨"a", 3, .doubling, .degree⟩ =
      product.eval ⟨"k", 2, Context.empty.bind "a" 3, .radian⟩ ∧
    product.eval ⟨"a", 3, .doubling, .degree⟩ =
      product.eval ⟨"a", 3, Context.doubling.bind "a" 100, .degree⟩ ∧
    Search.SameResults (product.graph "a" .doubling {})
      (product.graph "a" (Context.doubling.bind "a" 100) {}) (product.graph "a" .doubling {})
      (product.graph "a" (Context.doubling.bind "a" 100) {}) ∧
    product.eval ⟨"a", 3, .doubling, .degree⟩ =
      product.eval ⟨"k", 2, Context.empty.bind "a" 3, .degree⟩ ∧
    product.eval ⟨"z", 5, Context.doubling.bind "a" 3, .degree⟩ =
      product.eval ⟨"a", 3, .doubling, .degree⟩ ∧
    product.eval ⟨"a", 3, .doubling, .degree⟩ = product.eval ⟨"a", 3, .doubling, .radian⟩ ∧
    Search.SameResults (product.graph "a" .doubling {})
      (product.graph "a" .doubling { angleUnit := .radian }) (product.graph "a" .doubling {})
      (product.graph "a" .doubling { angleUnit := .radian }) := by
  have hexcept := Context.eqExcept_bind .doubling "a" 100
  have hne : "k" ≠ "a" := by decide
  have hz : "z" ∉ product.symbols := by
    rw [symbols_product]
    decide
  have hfree := isAngleFree_product
  have hagrees : Scope.AgreesOn ⟨"a", 3, .doubling, .degree⟩
      ⟨"k", 2, Context.empty.bind "a" 3, .radian⟩ product :=
    ⟨(Scope.agreesOn_bind_bind hne).names, .inr hfree⟩
  obtain ⟨hagree, hbinding, hsearch, hswap, -, hunit, hsearchunit⟩ :=
    eval_depends_on_names product product "a"
  obtain ⟨-, -, -, -, hbound, -, -⟩ := eval_depends_on_names product product "z"
  exact ⟨⟨hexcept, hne, hz, hfree⟩, hagree _ _ hagrees,
    hbinding "a" _ _ (.inl rfl) hexcept 3 .degree,
    hsearch "a" _ _ (.inl rfl) hexcept {},
    hswap "k" 2 3 .empty .degree hne,
    hbound "a" 3 5 .doubling .degree hz,
    hunit hfree 3 .doubling .degree .radian,
    hsearchunit hfree hfree .doubling {} { angleUnit := .radian }⟩

end CurveSearch
