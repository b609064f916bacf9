/-!
# Values

Evaluating an expression at a point never fails: leaving the real line and having no value at all
are values of their own, and a search takes both as a gap in the graph.
-/

namespace CurveSearch

inductive Value where
  | real (x : Float)
  | nonReal
  | undefined
  deriving BEq, Repr

namespace Value

/-- A computed double as a value: infinities and NaN are undefined. -/
def ofFloat (x : Float) : Value := if x.isFinite then .real x else .undefined

def finite? : Value → Option Float
  | .real x => if x.isFinite then some x else none
  | _ => none

def real? : Value → Option Float
  | .real x => some x
  | _ => none

end Value

end CurveSearch
