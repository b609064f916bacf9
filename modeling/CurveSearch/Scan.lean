import CurveSearch.Detector.Basic
import CurveSearch.Refine.Basic
import CurveSearch.Refine.Origin
import CurveSearch.Window

/-!
# Scanning a window

A scan visits the cursors of a window in order. Where the graph is defined the sample joins the
history and the detector looks at it; a candidate is refined and snapped, and the first point that
the detector accepts ends the scan. Gaps in the graph leave no trace. A cursor beyond the end of the
window ends the scan too, and so does the end of the cursor indices, which have sixty-four bits.
-/

namespace CurveSearch

inductive ScanOutcome where
  | found (p : Point)
  | exhausted (history : History)

namespace Scan

structure State (σ : Type) where
  history : History
  detector : σ

variable {σ : Type} (detector : Detector σ) (f : Graph) (w : Window) (tol : Tolerances)

def State.start : State σ := ⟨.start tol.tailWindow, detector.start⟩

/-- Takes one sample: a result, or the state to go on with. -/
def sample (state : State σ) (s : Sample) : Point ⊕ State σ :=
  let history := state.history.push s
  let (candidate, next) := detector.detect tol history.recent state.detector
  match candidate with
  | none => .inr ⟨history, next⟩
  | some candidate =>
      let p := Origin.snap f w tol (candidate.refine f tol)
      if detector.accepts tol p then .inl p else .inr ⟨history, next⟩

def visit (state : State σ) (x : Float) : Point ⊕ State σ :=
  match f x with
  | none => .inr state
  | some y => sample detector f w tol state ⟨x, y⟩

/-- The scan from the cursor with index `i` on. -/
def run (state : State σ) (i : Nat) : ScanOutcome :=
  if i < UInt64.size then
    let x := w.cursor i
    if w.max < x then .exhausted state.history
    else match visit detector f w tol state x with
      | .inl p => .found p
      | .inr state => run state (i + 1)
  else .exhausted state.history
  termination_by UInt64.size - i

end Scan

def scan {σ : Type} (detector : Detector σ) (f : Graph) (w : Window) (tol : Tolerances) :
    ScanOutcome :=
  Scan.run detector f w tol (.start detector tol) 1

end CurveSearch
