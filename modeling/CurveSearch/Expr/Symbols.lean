import CurveSearch.Expr.Basic

/-!
# The symbols of an expression

The names that occur in a tree, in increasing order and each once.
-/

namespace CurveSearch.Expr

/-- Inserts a name before the first greater one, unless it is there already. -/
def insertName (name : String) : List String → List String
  | [] => [name]
  | other :: rest =>
      if name = other then other :: rest
      else if name < other then name :: other :: rest
      else other :: insertName name rest

def addSymbols : Expr → List String → List String
  | .number _, names => names
  | .symbol name, names => insertName name names
  | .neg a, names => a.addSymbols names
  | .binary _ a b, names => b.addSymbols (a.addSymbols names)
  | .call _ a, names => a.addSymbols names

def symbols (e : Expr) : List String := e.addSymbols []

@[simp] theorem mem_insertName {name other : String} {names : List String} :
    other ∈ insertName name names ↔ other = name ∨ other ∈ names := by
  induction names with
  | nil => simp [insertName]
  | cons head rest ih =>
      simp only [insertName]
      split
      · next h => subst h; simp
      · split
        · simp
        · simp only [List.mem_cons, ih]
          exact or_left_comm

end CurveSearch.Expr
