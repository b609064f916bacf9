import CurveSearch.Decimal.Plain
import CurveSearch.Json.Parsing
import CurveSearch.Records

/-!
# Configuration files

A configuration file holds tolerances as JSON; fields left out keep their defaults. The merged
tolerances are then checked as a whole, field by field in a fixed order, and the first fault is
reported.
-/

namespace CurveSearch.Configuration

inductive Fault where
  /-- A field that has to be finite and not below zero. -/
  | notNonnegative (field : String) (value : Float)
  | noIterations
  /-- A tail of fewer than two samples. -/
  | shortTail
  deriving BEq, Repr

def Fault.message : Fault → String
  | .notNonnegative field value =>
      "config field `" ++ field ++ "` must be a finite non-negative number, got " ++
        Decimal.plainText value
  | .noIterations => "config field `max_iterations` must be at least 1"
  | .shortTail => "config field `tail_window` must be at least 2"

def isNonnegative (v : Float) : Bool := v.isFinite && 0 ≤ v

def fault? (tol : Tolerances) : Option Fault :=
  let numbers := [("eps", tol.eps), ("zero_eps", tol.zeroEps), ("snap_eps", tol.snapEps),
    ("max_value", tol.maxValue)]
  match numbers.find? fun (_, v) ↦ !isNonnegative v with
  | some (field, v) => some (.notNonnegative field v)
  | none =>
      if tol.maxIterations = 0 then some .noIterations
      else if tol.tailWindow < 2 then some .shortTail
      else none

inductive Error where
  /-- There is no such file. -/
  | unreadable (path : String)
  /-- The file does not hold tolerances. -/
  | malformed (path : String)
  /-- The tolerances are out of range. -/
  | invalid (fault : Fault)
  deriving BEq, Repr

def Error.message : Error → String
  | .unreadable path => "reading config " ++ path
  | .malformed path => "parsing config " ++ path
  | .invalid fault => fault.message

/-- The tolerances in the file with the given path, or the defaults without a path. The contents of
files are given by `read?`. -/
def load (read? : String → Option String) : Option String → Except Error Tolerances
  | none => .ok {}
  | some path =>
      match read? path with
      | none => .error (.unreadable path)
      | some text =>
          match (Json.parse? text).bind Tolerances.ofJson? with
          | none => .error (.malformed path)
          | some tol =>
              match fault? tol with
              | some fault => .error (.invalid fault)
              | none => .ok tol

end CurveSearch.Configuration
