import CurveSearch.Candidate
import CurveSearch.Graph
import CurveSearch.Point

/-!
# Golden-section search

An interval is probed at two inner points that divide it in the golden ratio. The end beside the
worse probe moves to that probe, and the other probe is used again; of two equal probes both become
ends. The search stops when the ends and probes are no longer in increasing order, which the
resolution of the doubles brings about, or when the limit on steps is reached.
-/

namespace CurveSearch.GoldenSection

def ratio : Float := 0.6180339887498949

def leftProbe (a b : Float) : Float := b - ratio * (b - a)

def rightProbe (a b : Float) : Float := a + ratio * (b - a)

structure Division where
  a : Float
  b : Float
  c : Float
  d : Float
  costC : Float
  costD : Float

namespace Division

def ofEnds (cost : Float → Float) (a b : Float) : Division :=
  let c := leftProbe a b
  let d := rightProbe a b
  ⟨a, b, c, d, cost c, cost d⟩

def isOrdered (s : Division) : Bool := s.a < s.c && s.c < s.d && s.d < s.b

def shrink (cost : Float → Float) (s : Division) : Division :=
  if s.costC < s.costD then
    let c := leftProbe s.a s.d
    { a := s.a, b := s.d, c, d := s.c, costC := cost c, costD := s.costC }
  else if s.costD < s.costC then
    let d := rightProbe s.c s.b
    { a := s.c, b := s.b, c := s.d, d, costC := s.costD, costD := cost d }
  else ofEnds cost s.c s.d

def narrow (cost : Float → Float) : Nat → Division → Division
  | 0, s => s
  | steps + 1, s => if s.isOrdered then narrow cost steps (s.shrink cost) else s

end Division

def minimize (cost : Float → Float) (steps : Nat) (lo hi : Float) : Float :=
  let s := (Division.ofEnds cost lo hi).narrow cost steps
  0.5 * (s.a + s.b)

/-- Refines the peak `mid` of a bracket. The sample itself stands unless the refined point is
strictly better. -/
def improve (f : Graph) (goal : Goal) (bracket : Bracket) (mid : Sample) (steps : Nat) : Point :=
  let x := minimize (fun x ↦ goal.cost (f x)) steps bracket.lo.x bracket.hi.x
  match f x with
  | some y => if goal.cost (some y) < goal.cost (some mid.y) then ⟨x, y⟩ else ⟨mid.x, mid.y⟩
  | none => ⟨mid.x, mid.y⟩

end CurveSearch.GoldenSection
