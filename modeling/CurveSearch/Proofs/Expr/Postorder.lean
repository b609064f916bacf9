import Mathlib.Data.Set.Function
import CurveSearch.Expr.Yard

/-!
# Reading a listing back

A stack of trees lists the nodes of its lowest tree first. A node that finds its operands on the stack
comes after everything that the stack lists, so the stack lists what has been read; and a listing that
leaves one tree is the postorder of that tree.
-/

namespace CurveSearch.Expr

/-- What the trees on a stack list, the lowest tree first. -/
def listing (stack : List Expr) : List Node := stack.reverse.flatMap postorder

@[simp] theorem listing_nil : listing [] = [] := rfl

@[simp] theorem listing_cons (e : Expr) (stack : List Expr) :
    listing (e :: stack) = listing stack ++ e.postorder := by
  simp [listing]

variable {node : Node} {nodes : List Node} {stack stack' : List Expr} {e : Expr}

/-- A node that finds its operands on the stack is listed after them. -/
theorem Node.listing_build? (h : node.build? stack = some stack') :
    listing stack' = listing stack ++ [node] := by
  unfold Node.build? at h
  split at h
  -- Only a node that lacks an operand builds nothing.
  case h_6 => contradiction
  all_goals
    cases h
    simp [postorder]

theorem listing_foldlM_build?
    (h : nodes.foldlM (fun stack node ↦ Node.build? node stack) stack = some stack') :
    listing stack' = listing stack ++ nodes := by
  induction nodes generalizing stack with
  | nil =>
      cases h
      simp
  | cons node nodes ih =>
      rw [List.foldlM_cons] at h
      obtain ⟨built, hbuilt, hrest⟩ := Option.bind_eq_some_iff.mp h
      rw [ih hrest, Node.listing_build? hbuilt, List.append_assoc, List.singleton_append]

theorem eq_postorder_of_ofPostorder? (h : ofPostorder? nodes = some e) : nodes = e.postorder := by
  unfold ofPostorder? at h
  split at h
  · next a hread =>
      cases h
      simpa using (listing_foldlM_build? hread).symm
  · exact nomatch h

theorem ofPostorder?_eq_some_iff : ofPostorder? nodes = some e ↔ nodes = e.postorder := by
  constructor
  · exact eq_postorder_of_ofPostorder?
  · rintro rfl
    exact ofPostorder?_postorder e

theorem ofPostorder_eq_ok : ofPostorder nodes = .ok e ↔ ofPostorder? nodes = some e := by
  unfold ofPostorder
  cases ofPostorder? nodes <;> simp

theorem ofPostorder_eq_malformed :
    ofPostorder nodes = .error .malformed ↔ ofPostorder? nodes = none := by
  unfold ofPostorder
  cases ofPostorder? nodes <;> simp

/-- A listing is read as a tree if and only if it is the postorder of that tree, and it is malformed
if and only if it is the postorder of no tree; so different listings are read as different trees. -/
theorem ofPostorder_eq_ok_iff :
    (∀ nodes e, ofPostorder nodes = .ok e ↔ nodes = e.postorder) ∧
      (∀ nodes, ofPostorder nodes = .error .malformed ↔ ∀ e : Expr, nodes ≠ e.postorder) ∧
      {nodes | ∃ e, ofPostorder nodes = .ok e}.InjOn ofPostorder := by
  have hok : ∀ nodes e, ofPostorder nodes = .ok e ↔ nodes = e.postorder := fun nodes e ↦
    ofPostorder_eq_ok.trans ofPostorder?_eq_some_iff
  refine ⟨hok, fun nodes ↦ ?_, ?_⟩
  · rw [ofPostorder_eq_malformed, Option.eq_none_iff_forall_ne_some]
    exact forall_congr' fun e ↦ ofPostorder?_eq_some_iff.not
  · rintro nodes ⟨e, he⟩ nodes' - heq
    rw [(hok nodes e).mp he, (hok nodes' e).mp (heq.symm.trans he)]

end CurveSearch.Expr
