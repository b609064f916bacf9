import CurveSearch.Binary64
import CurveSearch.Context
import CurveSearch.Expr.Basic
import CurveSearch.Graph
import CurveSearch.Preferences
import CurveSearch.Value

/-!
# Evaluating expressions

Evaluation is in real arithmetic. A node with an undefined operand is undefined; a node with an
operand off the real line, and none undefined, is itself off the real line; what overflows is
undefined. The search symbol stands for the abscissa, whatever the context binds it to.
-/

namespace CurveSearch

/-- What the names in an expression stand for, and the unit of its angles. -/
structure Scope where
  symbol : String
  abscissa : Float
  context : Context
  unit : AngleUnit

def Scope.value (s : Scope) (name : String) : Value :=
  if name = s.symbol then .ofFloat s.abscissa
  else match s.context.get? name with
    | some v => .ofFloat v
    | none => .undefined

/-- A power: undefined for a negative power of zero, off the real line for a power of a negative
number with a fractional exponent. -/
def power (p q : Float) : Value :=
  if p == 0 && q < 0 then .undefined
  else if p < 0 && !Binary64.isInteger q then .nonReal
  else .ofFloat (p.pow q)

/-- A binary operation on two real operands. Division by either zero is undefined. -/
def BinaryOp.apply : BinaryOp → Float → Float → Value
  | .add, p, q => .ofFloat (p + q)
  | .sub, p, q => .ofFloat (p - q)
  | .mul, p, q => .ofFloat (p * q)
  | .div, p, q => if q == 0 then .undefined else .ofFloat (p / q)
  | .pow, p, q => power p q

def inUnitInterval (v : Float) : Bool := -1 ≤ v && v ≤ 1

/-- A logarithm: off the real line for negative numbers and undefined at zero. -/
def logarithm (log : Float → Float) (v : Float) : Value :=
  if v < 0 then .nonReal else if v == 0 then .undefined else .ofFloat (log v)

def Elementary.apply (unit : AngleUnit) : Elementary → Float → Value
  | .sin, v => .ofFloat (unit.toRadians v).sin
  | .cos, v => .ofFloat (unit.toRadians v).cos
  | .tan, v => .ofFloat (unit.toRadians v).tan
  | .asin, v => if inUnitInterval v then .ofFloat (unit.fromRadians v.asin) else .nonReal
  | .acos, v => if inUnitInterval v then .ofFloat (unit.fromRadians v.acos) else .nonReal
  | .atan, v => .ofFloat (unit.fromRadians v.atan)
  | .sqrt, v => if v < 0 then .nonReal else .ofFloat v.sqrt
  | .ln, v => logarithm Float.log v
  | .log, v => logarithm Float.log10 v
  | .exp, v => .ofFloat v.exp
  | .abs, v => .ofFloat v.abs

def Value.map (f : Float → Value) : Value → Value
  | .real v => f v
  | v => v

/-- A function of two numbers, carried over to values. Undefined operands dominate. -/
def Value.map₂ (f : Float → Float → Value) : Value → Value → Value
  | .real p, .real q => f p q
  | .undefined, _ => .undefined
  | _, .undefined => .undefined
  | _, _ => .nonReal

namespace Expr

def eval (s : Scope) : Expr → Value
  | .number v => .ofFloat v
  | .symbol name => s.value name
  | .neg a => (a.eval s).map fun v ↦ .real (-v)
  | .binary op a b => (a.eval s).map₂ op.apply (b.eval s)
  | .call f a => (a.eval s).map (f.apply s.unit)

def graph (e : Expr) (symbol : String) (context : Context) (preferences : Preferences) : Graph :=
  fun x ↦ (e.eval ⟨symbol, x, context, preferences.angleUnit⟩).finite?

end Expr

end CurveSearch
