import CurveSearch.Binary64
import CurveSearch.Value

/-!
# Tables of samples

A table gives the values of a function on an evenly spaced grid. Between the points of the grid it
is read either as a step function, with the value of the nearest point, or as a broken line. Beyond
its ends it is undefined.
-/

namespace CurveSearch

inductive Interpolation where
  | step
  | linear
  deriving DecidableEq, Repr

/-- Values over `origin`, `origin + spacing`, `origin + 2 * spacing`, …. -/
structure SampleTable where
  values : Array Value
  origin : Float := 0
  spacing : Float := 1
  interpolation : Interpolation := .step

namespace SampleTable

def entry (t : SampleTable) (i : Nat) : Value := t.values.getD i .undefined

/-- The value over an abscissa that is given in steps from the origin. -/
def atStep (t : SampleTable) (u : Float) : Value :=
  match t.interpolation with
  | .step =>
      match Binary64.floor? (u + 0.5) with
      | some (.ofNat i) => t.entry i
      | _ => .undefined
  | .linear =>
      match Binary64.floor? u with
      | some (.ofNat i) =>
          if t.values.size ≤ i then .undefined
          else
            let left := Float.ofNat i
            if left == u then t.entry i
            else match t.entry i, t.entry (i + 1) with
              | .real a, .real b => .real (a + (b - a) * (u - left))
              | _, _ => .undefined
      | _ => .undefined

def value (t : SampleTable) (x : Float) : Value := t.atStep ((x - t.origin) / t.spacing)

end SampleTable

end CurveSearch
