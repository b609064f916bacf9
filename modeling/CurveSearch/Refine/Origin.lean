import CurveSearch.Graph
import CurveSearch.Point
import CurveSearch.Tolerances
import CurveSearch.Window

/-!
# Snapping to the origin

Refinement leaves rounding noise around zero. A point whose abscissa is within a small part of a
step of zero moves to zero, if zero is in the window and the graph is defined there; a value within
that part of a step of zero becomes zero.
-/

namespace CurveSearch.Origin

/-- Whether a number is within `tol` of zero without being zero. -/
def isNoise (tol v : Float) : Bool := v != 0 && v.abs < tol

def inWindow (w : Window) : Bool := w.start < 0 && 0 ≤ w.max

/-- The point over zero, if the given point is close enough to it. -/
def snapAbscissa (f : Graph) (w : Window) (tol : Float) (p : Point) : Point :=
  if inWindow w && isNoise tol p.abscissa then
    match f 0 with
    | some y => ⟨0, y⟩
    | none => p
  else p

def snapValue (tol : Float) (p : Point) : Point :=
  if isNoise tol p.value then { p with value := 0 } else p

def snap (f : Graph) (w : Window) (tol : Tolerances) (p : Point) : Point :=
  let noise := w.step * tol.snapEps
  snapValue noise (snapAbscissa f w noise p)

end CurveSearch.Origin
