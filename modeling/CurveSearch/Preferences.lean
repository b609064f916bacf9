import CurveSearch.Angle

/-!
# Evaluation preferences

The complex format is recorded with every request and its report. It has no effect on a search:
graphs are sampled on the real plane, where a value off the real line is undefined in both formats.
-/

namespace CurveSearch

/-- What becomes of a result that leaves the real line. -/
inductive ComplexFormat where
  | real
  | cartesian
  deriving DecidableEq, Repr

namespace ComplexFormat

def name : ComplexFormat → String
  | .real => "real"
  | .cartesian => "cartesian"

def ofName? (name : String) : Option ComplexFormat :=
  [real, cartesian].find? (·.name = name)

end ComplexFormat

structure Preferences where
  complexFormat : ComplexFormat := .real
  angleUnit : AngleUnit := .standard
  deriving DecidableEq, Repr

end CurveSearch
