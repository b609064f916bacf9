import CurveSearch.Binary64

/-!
# The history of a scan

A scan may take any number of samples and looks back at few of them: the last three when it looks
for a candidate, and a tail of fixed length when it ends without a result. A history therefore keeps
the number of samples, their range, and the last ones, latest first. Whenever the number of samples
is a multiple of the capacity the list is cut back to the capacity, so it always holds the tail and
never twice as much, and a cut costs one step per sample.
-/

namespace CurveSearch

structure Sample where
  x : Float
  y : Float
  deriving BEq, Repr

def Sample.isNegative (s : Sample) : Bool := s.y < 0

structure History where
  /-- The length of the tail. -/
  capacity : Nat
  count : Nat
  low : Float
  high : Float
  /-- The last samples, latest first. -/
  recent : List Sample
  deriving Repr

namespace History

/-- The history before the first sample. The tail is never shorter than three samples. -/
def start (tailWindow : Nat) : History where
  capacity := max tailWindow 3
  count := 0
  low := Binary64.infinity
  high := Binary64.negInfinity
  recent := []

def push (h : History) (s : Sample) : History where
  capacity := h.capacity
  count := h.count + 1
  low := Binary64.minimum h.low s.y
  high := Binary64.maximum h.high s.y
  recent :=
    if (h.count + 1) % h.capacity = 0 then (s :: h.recent).take h.capacity else s :: h.recent

/-- The last samples, latest first, at most as many as the capacity. -/
def tail (h : History) : List Sample := h.recent.take h.capacity

def latest? (h : History) : Option Sample := h.recent.head?

def spread (h : History) : Float := h.high - h.low

def fullTail? (h : History) : Option (List Sample) :=
  if h.capacity ≤ h.count then some h.tail else none

def spreadOf (samples : List Sample) : Float :=
  samples.foldr (fun s high ↦ Binary64.maximum high s.y) Binary64.negInfinity -
    samples.foldr (fun s low ↦ Binary64.minimum low s.y) Binary64.infinity

def tailSpread? (h : History) : Option Float := h.fullTail?.map spreadOf

/-- The spread of the tail divided by the distance from its first to its last abscissa. -/
def tailSlope? (h : History) : Option Float := do
  let tail ← h.fullTail?
  let last ← tail.head?
  let first ← tail.getLast?
  some (spreadOf tail / (last.x - first.x))

@[simp] theorem capacity_push (h : History) (s : Sample) : (h.push s).capacity = h.capacity := rfl

@[simp] theorem count_push (h : History) (s : Sample) : (h.push s).count = h.count + 1 := rfl

/-- Cutting back never shortens the tail. -/
theorem tail_push (h : History) (s : Sample) :
    (h.push s).tail = (s :: h.recent).take h.capacity := by
  simp only [tail, push]
  split <;> simp [List.take_take]

end History

end CurveSearch
