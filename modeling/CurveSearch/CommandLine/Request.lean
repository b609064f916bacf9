import CurveSearch.Context
import CurveSearch.Detector.Turn
import CurveSearch.Preferences
import CurveSearch.Window

/-!
# Requests

A request is what the arguments of the command line ask for: a report, or a search with its options.
-/

namespace CurveSearch.CommandLine

inductive Task where
  | root
  | extremum (kind : Extremum)
  | intersection (other : String)
  deriving DecidableEq, Repr

def Task.name : Task → String
  | .root => "root"
  | .extremum .minimum => "min"
  | .extremum .maximum => "max"
  | .intersection _ => "intersect"

structure Options where
  expression : String
  symbol : String := "a"
  start : Float := Window.standard.start
  step : Float := Window.standard.step
  max : Float := Window.standard.max
  angle : AngleUnit := .standard
  complex : Bool := false
  vars : List (String × Float) := []
  count : Nat := 1
  json : Bool := false
  config : Option String := none
  maxSamples : Nat := 1000000
  out : Option String := none
  deriving Repr

namespace Options

def window (o : Options) : Window := ⟨o.start, o.step, o.max⟩

def context (o : Options) : Context := .ofList o.vars

def preferences (o : Options) : Preferences where
  complexFormat := if o.complex then .cartesian else .real
  angleUnit := o.angle

end Options

inductive Request where
  | search (task : Task) (options : Options)
  | report
  deriving Repr

end CurveSearch.CommandLine
