/-!
# Contexts

A context binds names to numbers. Its bindings are kept in the order of their names, each name
once, so two contexts with the same bindings are the same list however they were built. Strings are
compared code point by code point.
-/

namespace CurveSearch

/-- A finite map from names to numbers, as a list in increasing order of names. -/
structure Context where
  bindings : List (String × Float)
  deriving BEq, Repr

namespace Context

def empty : Context := ⟨[]⟩

/-- Inserts a binding before the first greater name, replacing a binding of the same name. -/
def insertBinding (name : String) (value : Float) :
    List (String × Float) → List (String × Float)
  | [] => [(name, value)]
  | (other, v) :: rest =>
      if name = other then (name, value) :: rest
      else if name < other then (name, value) :: (other, v) :: rest
      else (other, v) :: insertBinding name value rest

/-- Binds a name; a later binding of the same name wins. -/
def bind (c : Context) (name : String) (value : Float) : Context :=
  ⟨insertBinding name value c.bindings⟩

def ofList (bindings : List (String × Float)) : Context :=
  bindings.foldl (fun c binding ↦ c.bind binding.1 binding.2) empty

def get? (c : Context) (name : String) : Option Float := c.bindings.lookup name

def contains (c : Context) (name : String) : Bool := (c.get? name).isSome

def names (c : Context) : List String := c.bindings.map Prod.fst

@[simp] theorem get?_empty (name : String) : empty.get? name = none := rfl

theorem lookup_cons_eq_ite (name key : String) (v : Float) (l : List (String × Float)) :
    ((key, v) :: l).lookup name = if name = key then some v else l.lookup name := by
  by_cases h : name = key
  · simp [h]
  · simp [List.lookup_cons, h, beq_eq_false_iff_ne.mpr h]

theorem lookup_insertBinding (name other : String) (value : Float)
    (l : List (String × Float)) :
    (insertBinding name value l).lookup other =
      if other = name then some value else l.lookup other := by
  induction l with
  | nil => simp [insertBinding, lookup_cons_eq_ite]
  | cons binding rest ih =>
      obtain ⟨key, v⟩ := binding
      simp only [insertBinding]
      split
      · next h => subst h; by_cases ho : other = name <;> simp [lookup_cons_eq_ite, ho]
      · next h =>
          split
          · simp [lookup_cons_eq_ite]
          · by_cases hk : other = key
            · subst hk
              simp [Ne.symm h]
            · simp [lookup_cons_eq_ite, hk, ih]

@[simp] theorem get?_bind_self (c : Context) (name : String) (value : Float) :
    (c.bind name value).get? name = some value := by
  simp [bind, get?, lookup_insertBinding]

theorem get?_bind_of_ne (c : Context) {name other : String} (value : Float)
    (h : other ≠ name) : (c.bind name value).get? other = c.get? other := by
  simp [bind, get?, lookup_insertBinding, h]

end Context

end CurveSearch
