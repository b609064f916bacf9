import CurveSearch.History
import CurveSearch.Point
import CurveSearch.Tolerances

/-!
# The verdict on a scan without a result

A scan that ends without an extremum may still tell what the graph does. If all samples are within
the tolerance of each other the graph is flat; if the tail is, and is not rising or falling faster
than the tolerance per unit either, the graph has settled. In both cases the last value stands for
the graph.
-/

namespace CurveSearch

inductive Verdict where
  | tooFewSamples
  /-- Flat or settled, at the given value. -/
  | flat (value : Float)
  | unsettled
  deriving BEq, Repr

namespace Verdict

/-- Whether the tail of a history is level. -/
def isSettled (h : History) (tol : Tolerances) : Bool :=
  h.tailSpread?.any (· < tol.eps) && h.tailSlope?.any (· < tol.eps)

def ofHistory (h : History) (tol : Tolerances) : Verdict :=
  match h.latest? with
  | none => .tooFewSamples
  | some last =>
      if h.count < 2 then .tooFewSamples
      else if h.spread < tol.eps then .flat last.y
      else if isSettled h tol then .flat last.y
      else .unsettled

def point : Verdict → Point
  | .flat value => .unlocated value
  | _ => .nowhere

end Verdict

end CurveSearch
