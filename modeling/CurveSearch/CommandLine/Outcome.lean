import CurveSearch.CommandLine.Request
import CurveSearch.Decimal.Fixed
import CurveSearch.Json.Printing
import CurveSearch.Records
import CurveSearch.Walk

/-!
# Outcomes

The outcome of a request is the walk it led to. It is printed as lines, with the coordinates rounded
to ten places, or as a JSON document with all their digits.
-/

namespace CurveSearch.CommandLine

/-- A walk together with what was asked for. -/
structure Outcome where
  task : Task
  expression : String
  other : Option String
  walk : Walk

namespace Outcome

/-- A member that is left out if there is nothing to say. -/
def optional (name : String) : Option Json → List (String × Json)
  | some value => [(name, value)]
  | none => []

def toJson (o : Outcome) : Json :=
  .record <|
    [("operation", .ofString o.task.name), ("expr", .ofString o.expression)] ++
      optional "with" (o.other.map .ofString) ++
      [("points", .array (o.walk.points.map Point.toJson))] ++
      optional "end" (o.walk.miss.map Point.toJson)

def pointLine (p : Point) : String :=
  "x = " ++ Decimal.fixedText 10 p.abscissa ++ "\ty = " ++ Decimal.fixedText 10 p.value ++ "\n"

/-- The line of a miss. A graph without an extremum may have settled at a value. -/
def missLine (task : Task) (miss : Point) : String :=
  let settled := match task with
    | .extremum _ => miss.value.isFinite
    | _ => false
  "no further " ++ task.name ++
    (if settled then ": function settles at y = " ++ Decimal.plainText miss.value else "") ++ "\n"

def lines (o : Outcome) : String :=
  String.join (o.walk.points.map pointLine) ++ (o.walk.miss.map (missLine o.task)).getD ""

end Outcome

end CurveSearch.CommandLine
