import CurveSearch.Decimal.Plain
import CurveSearch.Expr.Basic

/-!
# Printing expressions

Every operation is printed with its own parentheses, so the printed form needs no precedence.
Numbers are printed in plain text. The printed form is defined by concatenation; a text is built
from its end, so that no part of it is copied.
-/

namespace CurveSearch.Expr

def print : Expr → List Char
  | .number v => Decimal.plain v
  | .symbol name => name.toList
  | .neg a => '-' :: '(' :: a.print ++ [')']
  | .binary op a b => '(' :: a.print ++ [' ', op.sign, ' '] ++ b.print ++ [')']
  | .call f a => f.name.toList ++ '(' :: a.print ++ [')']

/-- A tree as characters, in front of others. -/
def printOnto : Expr → List Char → List Char
  | .number v, rest => Decimal.plain v ++ rest
  | .symbol name, rest => name.toList ++ rest
  | .neg a, rest => '-' :: '(' :: a.printOnto (')' :: rest)
  | .binary op a b, rest =>
      '(' :: a.printOnto (' ' :: op.sign :: ' ' :: b.printOnto (')' :: rest))
  | .call f a, rest => f.name.toList ++ '(' :: a.printOnto (')' :: rest)

theorem printOnto_eq_append (e : Expr) (rest : List Char) : e.printOnto rest = e.print ++ rest := by
  induction e generalizing rest with
  | number v => rfl
  | symbol name => rfl
  | neg a ih => simp [printOnto, print, ih]
  | binary op a b iha ihb => simp [printOnto, print, iha, ihb]
  | call f a ih => simp [printOnto, print, ih]

def text (e : Expr) : String := String.ofList (e.printOnto [])

theorem text_eq_ofList_print (e : Expr) : e.text = String.ofList e.print := by
  rw [text, printOnto_eq_append, List.append_nil]

end CurveSearch.Expr
