import CurveSearch.Binary64

/-!
# Points

The result of a search is a point. A NaN abscissa says that the search found no location; the value
may then still carry what the function settles at.
-/

namespace CurveSearch

structure Point where
  abscissa : Float
  value : Float
  deriving BEq, Repr

namespace Point

def nowhere : Point := ⟨Binary64.nan, Binary64.nan⟩

def unlocated (value : Float) : Point := ⟨Binary64.nan, value⟩

def isFound (p : Point) : Bool := p.abscissa.isFinite

/-- Whether two numbers differ by less than `tol`. A NaN agrees with a NaN and with nothing else. -/
def agree (tol a b : Float) : Bool :=
  if a.isNaN || b.isNaN then a.isNaN && b.isNaN else (a - b).abs < tol

def near (tol : Float) (p q : Point) : Bool :=
  agree tol p.abscissa q.abscissa && agree tol p.value q.value

end Point

end CurveSearch
