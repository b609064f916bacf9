import CurveSearch.Candidate
import CurveSearch.Graph
import CurveSearch.Point

/-!
# Bisection

A bracket whose ends have different signs is halved until a zero is hit, the graph has a gap at the
midpoint, the doubles between the ends are used up, or the limit on steps is reached. The end that
has the sign of the midpoint moves, so the ends keep their signs.
-/

namespace CurveSearch.Bisection

def midpoint (lo hi : Float) : Float := 0.5 * (lo + hi)

inductive Halving where
  | zero (p : Point)
  /-- The midpoint is no use. -/
  | stuck
  /-- The half in which the sign changes. -/
  | half (lo hi : Float)

/-- One step, where `negative` says whether the graph is below zero at the left end. -/
def halve (f : Graph) (negative : Bool) (lo hi : Float) : Halving :=
  let mid := midpoint lo hi
  if mid ≤ lo || hi ≤ mid then .stuck
  else match f mid with
    | none => .stuck
    | some y =>
        if y == 0 then .zero ⟨mid, y⟩
        else if decide (y < 0) == negative then .half mid hi
        else .half lo mid

/-- A point of the graph; its value is NaN where the graph has a gap. -/
def pointAt (f : Graph) (x : Float) : Point := ⟨x, (f x).getD Binary64.nan⟩

/-- At most the given number of steps, and then the midpoint of the bracket that is left. -/
def bisect (f : Graph) (negative : Bool) : Nat → Float → Float → Point
  | 0, lo, hi => pointAt f (midpoint lo hi)
  | steps + 1, lo, hi =>
      match halve f negative lo hi with
      | .zero p => p
      | .stuck => pointAt f (midpoint lo hi)
      | .half lo hi => bisect f negative steps lo hi

end CurveSearch.Bisection
