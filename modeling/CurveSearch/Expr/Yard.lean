import CurveSearch.Expr.Postorder
import CurveSearch.Expr.Token

/-!
# From tokens to postorder

Operations wait in a yard until their right operand is complete. An operation that arrives first
releases the waiting ones that bind at least as tightly, or more tightly in the case of the power,
which associates to the right. The rules beyond that:

* an operand directly after an operand is a factor of an implicit product;
* a minus where an operand is due is a negation, weaker than a power, and a plus there is skipped;
* a function applies to the next operand, and to a parenthesized one as soon as it closes.
-/

namespace CurveSearch.Expr

/-- What waits for its right operand or for its closing parenthesis. -/
inductive Pending where
  | binary (op : BinaryOp)
  | neg
  | call (f : Elementary)
  | group
  deriving DecidableEq, Repr

namespace Pending

def rank : Pending → Nat
  | .group => 0
  | .binary .add | .binary .sub => 1
  | .binary .mul | .binary .div => 2
  | .neg => 3
  | .binary .pow => 4
  | .call _ => 5

def node? : Pending → Option Node
  | .binary op => some (.binary op)
  | .neg => some .neg
  | .call f => some (.call f)
  | .group => none

/-- Whether a waiting operation takes what is finished as its operand when `op` arrives. -/
def precedes (op : BinaryOp) (p : Pending) : Bool :=
  (Pending.binary op).rank < p.rank || ((Pending.binary op).rank = p.rank && op ≠ .pow)

end Pending

/-- The state between two tokens: the nodes listed so far, latest first, what is waiting, innermost
first, and whether an operand is due. -/
structure Yard where
  listed : List Node := []
  waiting : List Pending := []
  operandDue : Bool := true
  deriving Repr

namespace Yard

def list (released : List Pending) (listed : List Node) : List Node :=
  (released.filterMap Pending.node?).reverse ++ listed

def operate (op : BinaryOp) (y : Yard) : Yard where
  listed := list (y.waiting.takeWhile (·.precedes op)) y.listed
  waiting := .binary op :: y.waiting.dropWhile (·.precedes op)
  operandDue := true

/-- Before anything that starts an operand: if none is due, it is a factor of a product. -/
def juxtapose (y : Yard) : Yard := if y.operandDue then y else y.operate .mul

def operand (node : Node) (y : Yard) : Yard :=
  { y with listed := node :: y.listed, operandDue := false }

def hold (p : Pending) (y : Yard) : Yard :=
  { y with waiting := p :: y.waiting, operandDue := true }

/-- A parenthesis closes after an operand: what waits inside is listed, and so is a function that
the group is the argument of. -/
def close (y : Yard) : Except SyntaxError Yard :=
  let listed := list (y.waiting.takeWhile (· ≠ .group)) y.listed
  match y.waiting.dropWhile (· ≠ .group) with
  | .group :: .call f :: outer => .ok ⟨.call f :: listed, outer, false⟩
  | .group :: outer => .ok ⟨listed, outer, false⟩
  | _ => .error .unbalanced

def nameNode (name : String) : Node :=
  if name = "pi" then .number 3.141592653589793
  else if name = "e" then .number 2.718281828459045
  else .symbol name

def feed (y : Yard) : Token → Except SyntaxError Yard
  | .number v => .ok (y.juxtapose.operand (.number v))
  | .name s =>
      match Elementary.ofName? s with
      | some f => .ok (y.juxtapose.hold (.call f))
      | none => .ok (y.juxtapose.operand (nameNode s))
  | .operation op =>
      if y.operandDue then
        match op with
        | .add => .ok y
        | .sub => .ok (y.hold .neg)
        | op => .error (.missingOperand op.sign.toString)
      else .ok (y.operate op)
  | .leftParen => .ok (y.juxtapose.hold .group)
  | .rightParen => if y.operandDue then .error (.missingOperand ")") else y.close

def finish (y : Yard) : Except SyntaxError (List Node) :=
  if y.operandDue then .error (.missingOperand "end of input")
  else if .group ∈ y.waiting then .error .unbalanced
  else .ok (list y.waiting y.listed).reverse

def run (tokens : List Token) : Except SyntaxError (List Node) := do
  (← tokens.foldlM feed {}).finish

end Yard

def ofTokens (tokens : List Token) : Except SyntaxError Expr := do
  ofPostorder (← Yard.run tokens)

def parse (text : String) : Except SyntaxError Expr := do
  ofTokens (← Token.ofText text.toList)

end CurveSearch.Expr
