import CurveSearch.Decimal.Reading
import CurveSearch.Text.Blank

/-!
# Bindings on the command line

A binding is written `name=value`. The first equals sign divides it, blanks around either side do
not count, and the name may be anything but empty.
-/

namespace CurveSearch.CommandLine

inductive BindingError where
  | noEqualsSign (text : String)
  | emptyName (text : String)
  | emptyValue (name : String)
  | badValue (name : String)
  deriving DecidableEq, Repr

def BindingError.message : BindingError → String
  | .noEqualsSign text => "expected name=value, got `" ++ text ++ "`"
  | .emptyName text => "empty variable name in `" ++ text ++ "`"
  | .emptyValue name => "bad value for `" ++ name ++ "`: cannot parse float from empty string"
  | .badValue name => "bad value for `" ++ name ++ "`: invalid float literal"

def parseBinding (text : String) : Except BindingError (String × Float) :=
  match text.toList.span (· ≠ '=') with
  | (_, []) => .error (.noEqualsSign text)
  | (left, _ :: right) =>
      let name := Text.trim left
      let value := Text.trim right
      if name = [] then .error (.emptyName text)
      else if value = [] then .error (.emptyValue (String.ofList name))
      else match Decimal.read? value with
        | some v => .ok (String.ofList name, v)
        | none => .error (.badValue (String.ofList name))

end CurveSearch.CommandLine
