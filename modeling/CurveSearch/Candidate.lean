import CurveSearch.Binary64
import CurveSearch.History

/-!
# Candidates

A candidate is what the latest samples suggest: a sample that is a result already, two samples with
a result between them, or three samples of which the middle one is the best.
-/

namespace CurveSearch

structure Bracket where
  lo : Sample
  hi : Sample
  deriving BEq, Repr

inductive Goal where
  | minimize
  | maximize
  | minimizeAbs
  deriving DecidableEq, Repr

/-- The cost of a value; less is better, and no value is worst. -/
def Goal.cost : Goal → Option Float → Float
  | _, none => Binary64.infinity
  | .minimize, some y => y
  | .maximize, some y => -y
  | .minimizeAbs, some y => y.abs

inductive Candidate where
  | exact (s : Sample)
  /-- The values at the ends of the bracket have different signs. -/
  | signChange (bracket : Bracket)
  /-- Among the ends of the bracket and `mid`, the last is the best for the goal. -/
  | peak (bracket : Bracket) (mid : Sample) (goal : Goal)
  deriving BEq, Repr

end CurveSearch
