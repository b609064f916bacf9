import CurveSearch.Detector.Basic

/-!
# Detecting extrema

A maximum shows as a turn of the sampled graph: a rise of more than the tolerance above the lowest
sample, and then a fall of more than the tolerance below the highest one. Rounding noise on a flat
graph does neither. A minimum is a maximum of the graph turned upside down.
-/

namespace CurveSearch

inductive Extremum where
  | maximum
  | minimum
  deriving DecidableEq, Repr

namespace Extremum

def name : Extremum → String
  | .maximum => "maximum"
  | .minimum => "minimum"

def ofName? (name : String) : Option Extremum :=
  [maximum, minimum].find? (·.name = name)

/-- The height of a sample; the wanted extremum is the highest. -/
def height : Extremum → Sample → Float
  | .maximum, s => s.y
  | .minimum, s => -s.y

def goal : Extremum → Goal
  | .maximum => .maximize
  | .minimum => .minimize

end Extremum

namespace Detector

/-- Where the sampled graph stands since its last turn. -/
inductive Phase where
  | fresh
  /-- No rise yet; the lowest sample. -/
  | low (trough : Sample)
  /-- After a rise; the highest sample and the one before it. -/
  | high (before best : Sample)
  deriving Repr

/-- The phase in which the latest sample is the highest after a rise. Without a sample before it
there is no such phase. -/
def Phase.rise : List Sample → Phase → Phase
  | cur :: prev :: _, _ => .high prev cur
  | _, otherwise => otherwise

/-- Takes the latest sample while no rise is confirmed. -/
def seekRise (kind : Extremum) (tol : Tolerances) (recent : List Sample) (cur trough : Sample) :
    Phase :=
  if kind.height cur < kind.height trough then .low cur
  else if kind.height trough + tol.eps < kind.height cur then .rise recent (.low trough)
  else .low trough

def turnCandidate? (kind : Extremum) (tol : Tolerances) (recent : List Sample) (phase : Phase) :
    Option Candidate × Phase :=
  match recent, phase with
  | [], phase => (none, phase)
  | cur :: _, .fresh => (none, seekRise kind tol recent cur cur)
  | cur :: _, .low trough => (none, seekRise kind tol recent cur trough)
  | cur :: _, .high before best =>
      if kind.height best < kind.height cur then (none, .rise recent phase)
      else if kind.height cur < kind.height best - tol.eps then
        (some (.peak ⟨before, cur⟩ best kind.goal), .low cur)
      else (none, phase)

/-- The detector of extrema. A finite point is one unless its value is implausibly large. -/
def turn (kind : Extremum) : Detector Phase where
  start := .fresh
  detect := turnCandidate? kind
  accepts tol p := p.value.isFinite && p.value.abs ≤ tol.maxValue

end Detector

end CurveSearch
