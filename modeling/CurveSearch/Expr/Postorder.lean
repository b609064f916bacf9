import CurveSearch.Expr.Basic
import CurveSearch.Expr.Error

/-!
# Trees in postorder

A postorder listing names the nodes of a tree with operands before their operation, left to right.
Reading a listing back keeps a stack of finished trees: a node takes as many trees off the stack as
it has operands, and a complete listing leaves exactly one.
-/

namespace CurveSearch.Expr

inductive Node where
  | number (v : Float)
  | symbol (name : String)
  | neg
  | binary (op : BinaryOp)
  | call (f : Elementary)
  deriving Repr

def postorder : Expr → List Node
  | .number v => [.number v]
  | .symbol name => [.symbol name]
  | .neg a => a.postorder ++ [.neg]
  | .binary op a b => a.postorder ++ b.postorder ++ [.binary op]
  | .call f a => a.postorder ++ [.call f]

/-- The postorder listing of a tree, in front of other nodes; no part of it is copied. -/
def postorderOnto : Expr → List Node → List Node
  | .number v, rest => .number v :: rest
  | .symbol name, rest => .symbol name :: rest
  | .neg a, rest => a.postorderOnto (.neg :: rest)
  | .binary op a b, rest => a.postorderOnto (b.postorderOnto (.binary op :: rest))
  | .call f a, rest => a.postorderOnto (.call f :: rest)

theorem postorderOnto_eq_append (e : Expr) (rest : List Node) :
    e.postorderOnto rest = e.postorder ++ rest := by
  induction e generalizing rest with
  | number v => rfl
  | symbol name => rfl
  | neg a ih => simp [postorderOnto, postorder, ih]
  | binary op a b iha ihb => simp [postorderOnto, postorder, iha, ihb]
  | call f a ih => simp [postorderOnto, postorder, ih]

/-- Puts a node on top of the trees that are its operands, last operand first. -/
def Node.build? : Node → List Expr → Option (List Expr)
  | .number v, stack => some (.number v :: stack)
  | .symbol name, stack => some (.symbol name :: stack)
  | .neg, a :: stack => some (.neg a :: stack)
  | .call f, a :: stack => some (.call f a :: stack)
  | .binary op, b :: a :: stack => some (.binary op a b :: stack)
  | _, _ => none

def ofPostorder? (nodes : List Node) : Option Expr :=
  match nodes.foldlM (fun stack node ↦ node.build? stack) [] with
  | some [e] => some e
  | _ => none

def ofPostorder (nodes : List Node) : Except SyntaxError Expr :=
  match ofPostorder? nodes with
  | some e => .ok e
  | none => .error .malformed

/-- A listing that starts with a tree's postorder puts that tree on the stack. -/
theorem foldlM_build?_postorder (e : Expr) (rest : List Node) (stack : List Expr) :
    (e.postorder ++ rest).foldlM (fun stack node ↦ Node.build? node stack) stack =
      rest.foldlM (fun stack node ↦ Node.build? node stack) (e :: stack) := by
  induction e generalizing rest stack with
  | number v => simp [postorder, Node.build?]
  | symbol name => simp [postorder, Node.build?]
  | neg a ih =>
      simp only [postorder, List.append_assoc, ih]
      simp [Node.build?]
  | binary op a b iha ihb =>
      simp only [postorder, List.append_assoc, iha, ihb]
      simp [Node.build?]
  | call f a ih =>
      simp only [postorder, List.append_assoc, ih]
      simp [Node.build?]

theorem ofPostorder?_postorder (e : Expr) : ofPostorder? e.postorder = some e := by
  have h := foldlM_build?_postorder e [] []
  simp only [List.append_nil] at h
  simp [ofPostorder?, h]

end CurveSearch.Expr
