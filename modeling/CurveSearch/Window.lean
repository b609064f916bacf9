import CurveSearch.Binary64

/-!
# Search windows

A window is a start, a step and a greatest abscissa. Its cursors are `start + i * step` for
`i = 1, 2, …`, so the start itself is never sampled. Each cursor is computed from its index and not
from the cursor before it, so long scans gather no drift.
-/

namespace CurveSearch

structure Window where
  start : Float
  step : Float
  max : Float
  deriving BEq, Repr

namespace Window

def standard : Window := ⟨-1, 0.1, 100⟩

def isValid (w : Window) : Bool :=
  w.start.isFinite && w.max.isFinite && w.step.isFinite && 0 < w.step

/-- The abscissa with index `i`, which counts from one and is below `2 ^ 64`. -/
def cursor (w : Window) (i : Nat) : Float := w.start + (UInt64.ofNat i).toFloat * w.step

/-- The number of steps from the start to the end, rounded up, and at most `2 ^ 64 - 1`. -/
def sampleCount (w : Window) : Nat :=
  if !w.isValid || w.max ≤ w.start then 0
  else match Binary64.ceil? ((w.max - w.start) / w.step) with
    | some n => min n.toNat (UInt64.size - 1)
    | none => UInt64.size - 1

def after (w : Window) (x : Float) : Window := { w with start := x + w.step }

end Window

end CurveSearch
