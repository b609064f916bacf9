import CurveSearch.CommandLine.Checks
import CurveSearch.Proofs.Expr.Failure

/-!
# The names in an expression

The check before a search collects the names of a tree and asks for each whether something gives it a
value; evaluation asks the same of each name that it comes to. The two agree: a tree that is refused
is undefined everywhere, because an undefined name is undefined of itself, and in a tree that is
accepted every name has a value, if the bindings and the abscissa are finite.
-/

namespace CurveSearch

namespace Expr

variable {e : Expr} {s : Scope} {name : String}

/-! ## The names that are collected -/

theorem mem_addSymbols {names : List String} :
    name ∈ e.addSymbols names ↔ .symbol name ∈ e.nodes ∨ name ∈ names := by
  induction e generalizing names with
  | number v => simp [addSymbols, nodes]
  | symbol other => simp [addSymbols, nodes]
  | neg a ih => simp [addSymbols, nodes, ih]
  | binary op a b iha ihb =>
      simp only [addSymbols, nodes, iha, ihb, List.mem_cons, List.mem_append, reduceCtorEq,
        false_or]
      exact or_left_comm.trans or_assoc.symm
  | call f a ih => simp [addSymbols, nodes, ih]

theorem mem_symbols : name ∈ e.symbols ↔ .symbol name ∈ e.nodes := by
  rw [symbols, mem_addSymbols]
  exact or_iff_left List.not_mem_nil

/-! ## The names that have values -/

theorem eval_eq_undefined_of_name (hname : name ∈ e.symbols) (h : s.value name = .undefined) :
    e.eval s = .undefined :=
  eval_eq_undefined_iff.mpr ⟨.symbol name, mem_symbols.mp hname, h⟩

/-- If all names have values, what makes a tree undefined is no name. -/
theorem exists_yields_of_eval_eq_undefined
    (hvalues : ∀ name ∈ e.symbols, ∃ v, s.value name = .real v) (h : e.eval s = .undefined) :
    ∃ n ∈ e.nodes, (∀ name, n ≠ .symbol name) ∧ n.Yields s .undefined := by
  obtain ⟨n, hn, hyields⟩ := eval_eq_undefined_iff.mp h
  refine ⟨n, hn, ?_, hyields⟩
  rintro name rfl
  obtain ⟨v, hv⟩ := hvalues name (mem_symbols.mpr hn)
  exact nomatch hv.symm.trans hyields

end Expr

/-! ## What names stand for -/

namespace Scope

variable {s : Scope} {name : String} {v : Float}

/-- The number that a name stands for: the abscissa for the search symbol, and else what the context
binds it to. -/
def lookup? (s : Scope) (name : String) : Option Float :=
  if name = s.symbol then some s.abscissa else s.context.get? name

theorem value_eq (s : Scope) (name : String) :
    s.value name = (s.lookup? name).elim .undefined .ofFloat := by
  unfold value lookup?
  split_ifs
  · rfl
  · cases s.context.get? name <;> rfl

theorem lookup?_symbol (s : Scope) : s.lookup? s.symbol = some s.abscissa := if_pos rfl

theorem lookup?_of_ne (h : name ≠ s.symbol) : s.lookup? name = s.context.get? name := if_neg h

theorem value_eq_undefined (h : s.lookup? name = none) : s.value name = .undefined := by
  rw [value_eq, h]
  rfl

theorem value_eq_real (h : s.lookup? name = some v) (hfin : v.isFinite) :
    s.value name = .real v := by
  rw [value_eq, h]
  exact if_pos hfin

end Scope

/-! ## The check -/

namespace CommandLine

variable {e : Expr} {symbol name : String} {context : Context}

theorem mem_unbound :
    name ∈ unbound e symbol context ↔
      name ∈ e.symbols ∧ name ≠ symbol ∧ ¬ context.contains name := by
  simp [unbound]

theorem exists_mem_unbound {err : UnboundError} (h : checkSymbols e symbol context = .error err) :
    ∃ name, name ∈ unbound e symbol context := by
  unfold checkSymbols at h
  split at h
  · exact nomatch h
  · next names hne => exact List.exists_mem_of_ne_nil _ hne

theorem exists_binding_of_ok (h : checkSymbols e symbol context = .ok ()) (hname : name ∈ e.symbols)
    (hsymbol : name ≠ symbol) : ∃ v, context.get? name = some v := by
  apply Option.isSome_iff_exists.mp
  by_contra hbound
  have hmem : name ∈ unbound e symbol context := mem_unbound.mpr ⟨hname, hsymbol, hbound⟩
  unfold checkSymbols at h
  split at h
  · next hnil =>
      rw [hnil] at hmem
      exact List.not_mem_nil hmem
  · exact nomatch h

/-- The check and evaluation agree. The names that are collected are those of the nodes; a tree that
is refused is undefined everywhere; and in a tree that is accepted all names have real values if the
bindings of its names and the abscissa are finite, so that no name makes it undefined. -/
theorem checkSymbols_agrees (e : Expr) (symbol : String) (context : Context) :
    (∀ name, name ∈ e.symbols ↔ .symbol name ∈ e.nodes) ∧
    (∀ err, checkSymbols e symbol context = .error err →
      ∀ x unit, e.eval ⟨symbol, x, context, unit⟩ = .undefined) ∧
    (checkSymbols e symbol context = .ok () →
      (∀ name ∈ e.symbols, name ≠ symbol → ∀ v, context.get? name = some v → v.isFinite) →
      ∀ x unit, x.isFinite →
        (∀ name, .symbol name ∈ e.nodes →
          ∃ v, (Expr.symbol name).eval ⟨symbol, x, context, unit⟩ = .real v) ∧
        (e.eval ⟨symbol, x, context, unit⟩ = .undefined →
          ∃ n ∈ e.nodes, (∀ name, n ≠ .symbol name) ∧
            n.Yields ⟨symbol, x, context, unit⟩ .undefined)) := by
  refine ⟨fun _ ↦ Expr.mem_symbols, fun err h x unit ↦ ?_, fun h hbindings x unit hx ↦ ?_⟩
  · obtain ⟨name, hname⟩ := exists_mem_unbound h
    obtain ⟨hmem, hsymbol, hbound⟩ := mem_unbound.mp hname
    rw [Context.contains, Option.not_isSome_iff_eq_none] at hbound
    apply Expr.eval_eq_undefined_of_name hmem
    exact Scope.value_eq_undefined ((Scope.lookup?_of_ne hsymbol).trans hbound)
  · have hvalues : ∀ name ∈ e.symbols, ∃ v,
        Scope.value ⟨symbol, x, context, unit⟩ name = .real v := by
      intro name hname
      by_cases hsymbol : name = symbol
      · subst hsymbol
        exact ⟨x, Scope.value_eq_real (Scope.lookup?_symbol _) hx⟩
      · obtain ⟨v, hv⟩ := exists_binding_of_ok h hname hsymbol
        have hlookup : Scope.lookup? ⟨symbol, x, context, unit⟩ name = some v :=
          (Scope.lookup?_of_ne hsymbol).trans hv
        exact ⟨v, Scope.value_eq_real hlookup (hbindings name hname hsymbol v hv)⟩
    exact ⟨fun name hname ↦ hvalues name (Expr.mem_symbols.mpr hname),
      Expr.exists_yields_of_eval_eq_undefined hvalues⟩

end CommandLine

def Expr.product : Expr := .binary .mul (.symbol "k") (.symbol "a")

def Context.doubling : Context := Context.empty.bind "k" 2

theorem Expr.symbols_product : product.symbols = ["a", "k"] := rfl

namespace CommandLine

/-- The product is refused if one of its names is not bound. If the name is bound to a finite number,
it has that value. -/
theorem checkSymbols_agrees_product :
    (∃ err, checkSymbols .product "a" .empty = .error err) ∧
    Expr.product.eval ⟨"a", 3, .empty, .degree⟩ = .undefined ∧
    checkSymbols .product "a" .doubling = .ok () ∧
    (∀ name ∈ Expr.product.symbols, name ≠ "a" → ∀ v,
      Context.doubling.get? name = some v → v.isFinite) ∧
    (3 : Float).isFinite ∧
    ∃ v, (Expr.symbol "k").eval ⟨"a", 3, .doubling, .degree⟩ = .real v := by
  obtain ⟨-, hrefused, -⟩ := checkSymbols_agrees .product "a" .empty
  obtain ⟨-, -, haccepted⟩ := checkSymbols_agrees .product "a" .doubling
  have hrefuse : checkSymbols .product "a" .empty = .error ⟨.product, ["k"], "a"⟩ := rfl
  have haccept : checkSymbols .product "a" .doubling = .ok () := rfl
  have hbindings : ∀ name ∈ Expr.product.symbols, name ≠ "a" → ∀ v,
      Context.doubling.get? name = some v → v.isFinite := by
    intro name hname hne v hv
    obtain rfl : name = "k" := by
      rw [Expr.symbols_product] at hname
      simpa [hne] using hname
    rw [Context.doubling, Context.get?_bind_self] at hv
    cases hv
    rfl
  have hmem : Expr.symbol "k" ∈ Expr.product.nodes := by simp [Expr.product, Expr.nodes]
  exact ⟨⟨_, hrefuse⟩, hrefused _ hrefuse 3 .degree, haccept, hbindings, rfl,
    (haccepted haccept hbindings 3 .degree rfl).1 "k" hmem⟩

end CommandLine

end CurveSearch
