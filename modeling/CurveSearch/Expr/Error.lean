/-!
# Errors of the expression reader

Each error names its cause. Offsets count characters from the start of the text.
-/

namespace CurveSearch.Expr

inductive SyntaxError where
  | empty
  /-- A character that starts no token. -/
  | unexpectedChar (c : Char) (offset : Nat)
  | invalidNumber (literal : String)
  /-- A parenthesis without its partner. -/
  | unbalanced
  /-- An operand is due at the named token or at the end. -/
  | missingOperand (near : String)
  /-- A listing of nodes that no tree has. -/
  | malformed
  deriving DecidableEq, Repr

def SyntaxError.message : SyntaxError → String
  | .empty => "empty expression"
  | .unexpectedChar c offset =>
      "unexpected character '" ++ c.toString ++ "' at offset " ++ offset.repr
  | .invalidNumber literal => "invalid number '" ++ literal ++ "'"
  | .unbalanced => "unbalanced parentheses"
  | .missingOperand near => "missing operand near '" ++ near ++ "'"
  | .malformed => "malformed expression"

end CurveSearch.Expr
