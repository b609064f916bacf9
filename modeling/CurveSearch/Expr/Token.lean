import CurveSearch.Decimal.Reading
import CurveSearch.Expr.Basic
import CurveSearch.Expr.Error
import CurveSearch.Text.Blank

/-!
# Tokens

A token is a number, a name, an operation sign or a parenthesis. Blanks separate tokens and are
otherwise skipped. A number is a maximal run of digits and points, a name a maximal run of ASCII
letters, digits and underscores that does not start with a digit; which names are functions or
constants is not decided here.
-/

namespace CurveSearch.Expr

inductive Token where
  | number (v : Float)
  | name (s : String)
  | operation (op : BinaryOp)
  | leftParen
  | rightParen
  deriving Repr

namespace Token

/-- The token that a single character makes, whatever follows it. -/
def ofSign? : Char → Option Token
  | '+' => some (.operation .add)
  | '-' | '−' => some (.operation .sub)
  | '*' | '×' => some (.operation .mul)
  | '/' | '÷' => some (.operation .div)
  | '^' => some (.operation .pow)
  | '(' => some .leftParen
  | ')' => some .rightParen
  | 'π' => some (.name "pi")
  | '√' => some (.name "sqrt")
  | _ => none

def isNumeral (c : Char) : Bool := c.isDigit || c = '.'

def isNameStart (c : Char) : Bool := c.isAlpha || c = '_'

def isNameChar (c : Char) : Bool := c.isAlphanum || c = '_'

theorem length_dropWhile_le (p : Char → Bool) (cs : List Char) :
    (cs.dropWhile p).length ≤ cs.length := by
  induction cs with
  | nil => simp
  | cons c cs ih =>
      rw [List.dropWhile_cons]
      split
      · exact Nat.le_succ_of_le ih
      · exact Nat.le_refl _

/-- The tokens of a text whose first character has the given offset. -/
def scan (offset : Nat) : List Char → Except SyntaxError (List Token)
  | [] => .ok []
  | c :: cs =>
      if Text.isBlank c then scan (offset + 1) cs
      else match ofSign? c with
        | some t => (t :: ·) <$> scan (offset + 1) cs
        | none =>
            if isNumeral c then
              let literal := c :: cs.takeWhile isNumeral
              match Decimal.read? literal with
              | some v =>
                  (.number v :: ·) <$> scan (offset + literal.length) (cs.dropWhile isNumeral)
              | none => .error (.invalidNumber (String.ofList literal))
            else if isNameStart c then
              let word := c :: cs.takeWhile isNameChar
              (.name (String.ofList word) :: ·) <$>
                scan (offset + word.length) (cs.dropWhile isNameChar)
            else .error (.unexpectedChar c offset)
  termination_by cs => cs.length
  decreasing_by
    all_goals simp only [List.length_cons]
    all_goals first
      | exact Nat.lt_succ_self _
      | exact Nat.lt_succ_of_le (length_dropWhile_le _ _)

def ofText (cs : List Char) : Except SyntaxError (List Token) :=
  match scan 0 cs with
  | .ok [] => .error .empty
  | result => result

end Token

end CurveSearch.Expr
