/-!
# Expressions

An expression is a tree over numbers and symbols with negation, five binary operations and eleven
elementary functions. Two trees are compared with the equality of doubles, so a NaN differs from
itself and the two zeros agree.
-/

namespace CurveSearch

inductive BinaryOp where
  | add
  | sub
  | mul
  | div
  | pow
  deriving DecidableEq, Repr

def BinaryOp.sign : BinaryOp → Char
  | .add => '+'
  | .sub => '-'
  | .mul => '*'
  | .div => '/'
  | .pow => '^'

inductive Elementary where
  | sin
  | cos
  | tan
  | asin
  | acos
  | atan
  | sqrt
  | ln
  | log
  | exp
  | abs
  deriving DecidableEq, Repr

namespace Elementary

def name : Elementary → String
  | .sin => "sin"
  | .cos => "cos"
  | .tan => "tan"
  | .asin => "asin"
  | .acos => "acos"
  | .atan => "atan"
  | .sqrt => "sqrt"
  | .ln => "ln"
  | .log => "log"
  | .exp => "exp"
  | .abs => "abs"

/-- The function that a name stands for. The inverse trigonometric functions have a long name
besides the printed one. -/
def ofName? : String → Option Elementary
  | "sin" => some .sin
  | "cos" => some .cos
  | "tan" => some .tan
  | "asin" | "arcsin" => some .asin
  | "acos" | "arccos" => some .acos
  | "atan" | "arctan" => some .atan
  | "sqrt" => some .sqrt
  | "ln" => some .ln
  | "log" => some .log
  | "exp" => some .exp
  | "abs" => some .abs
  | _ => none

theorem ofName?_name (f : Elementary) : ofName? f.name = some f := by cases f <;> rfl

end Elementary

inductive Expr where
  | number (v : Float)
  | symbol (name : String)
  | neg (a : Expr)
  | binary (op : BinaryOp) (a b : Expr)
  | call (f : Elementary) (a : Expr)
  deriving Repr

namespace Expr

def same : Expr → Expr → Bool
  | .number v, .number w => v == w
  | .symbol a, .symbol b => a = b
  | .neg a, .neg b => a.same b
  | .binary op a b, .binary op' a' b' => op = op' && a.same a' && b.same b'
  | .call f a, .call g b => f = g && a.same b
  | _, _ => false

instance : BEq Expr := ⟨same⟩

end Expr

end CurveSearch
