import CurveSearch.Proofs.Expr.Grammar

/-!
# The yard follows the grammar

A waiting operation that the next token will release may be released at once: whatever follows, the
yard ends with the same listing or the same error. With that, reading a phrase of the grammar is one
equation for each rule. The yard that has an operand due takes the tokens of the phrase and goes on
as the yard in which the tree of the phrase is listed, and nothing of it waits.
-/

namespace CurveSearch.Expr

namespace Yard

def complete (y : Yard) (ts : List Token) : Except SyntaxError (List Node) := do
  (← ts.foldlM feed y).finish

theorem complete_nil (y : Yard) : y.complete [] = y.finish := rfl

theorem complete_cons (y : Yard) (t : Token) (ts : List Token) :
    y.complete (t :: ts) = y.feed t >>= fun y' ↦ y'.complete ts := by
  rw [complete, List.foldlM_cons, bind_assoc]
  rfl

theorem complete_of_feed {y y' : Yard} {t : Token} (h : y.feed t = .ok y') (ts : List Token) :
    y.complete (t :: ts) = y'.complete ts := by
  rw [complete_cons, h]
  rfl

theorem complete_congr {y y' : Yard} {ts : List Token} (hfinish : y.finish = y'.finish)
    (hfeed : ∀ t ∈ ts.head?, y.feed t = y'.feed t) : y.complete ts = y'.complete ts := by
  cases ts with
  | nil => exact hfinish
  | cons t ts => rw [complete_cons, complete_cons, hfeed t rfl]

/-! ## Releasing early -/

theorem list_cons {p : Pending} {node : Node} (hnode : p.node? = some node)
    (released : List Pending) (listed : List Node) :
    list (p :: released) listed = list released (node :: listed) := by
  simp [list, hnode]

theorem ne_group_of_node? {p : Pending} {node : Node} (hnode : p.node? = some node) :
    p ≠ .group := by
  rintro rfl
  exact nomatch hnode

end Yard

/-- Whether a token that follows an operand makes a waiting operation take it. -/
def Token.releases (t : Token) (p : Pending) : Bool :=
  match t with
  | .operation op => p.precedes op
  | .rightParen => true
  | _ => p.precedes .mul

namespace Yard

variable {p : Pending} {node : Node} {listed : List Node} {waiting : List Pending}

theorem operate_release {op : BinaryOp} (hnode : p.node? = some node) (h : p.precedes op = true) :
    operate op ⟨listed, p :: waiting, false⟩ = operate op ⟨node :: listed, waiting, false⟩ := by
  simp [operate, h, list_cons hnode]

theorem close_release (hnode : p.node? = some node) :
    close ⟨listed, p :: waiting, false⟩ = close ⟨node :: listed, waiting, false⟩ := by
  simp [close, ne_group_of_node? hnode, list_cons hnode]

theorem feed_release {t : Token} (hnode : p.node? = some node) (h : t.releases p = true) :
    feed ⟨listed, p :: waiting, false⟩ t = feed ⟨node :: listed, waiting, false⟩ t := by
  have hjuxtapose : ∀ _ : p.precedes .mul = true,
      juxtapose ⟨listed, p :: waiting, false⟩ = juxtapose ⟨node :: listed, waiting, false⟩ := by
    intro hmul
    simp [juxtapose, operate_release hnode hmul]
  cases t with
  | number v => simp only [feed, hjuxtapose h]
  | name s => simp only [feed, hjuxtapose h]
  | leftParen => simp only [feed, hjuxtapose h]
  | operation op => simp [feed, operate_release hnode h]
  | rightParen => simp [feed, close_release hnode]

theorem finish_release (hnode : p.node? = some node) :
    finish ⟨listed, p :: waiting, false⟩ = finish ⟨node :: listed, waiting, false⟩ := by
  simp [finish, (ne_group_of_node? hnode).symm, list_cons hnode]

theorem complete_release {ts : List Token} (hnode : p.node? = some node)
    (h : ∀ t ∈ ts.head?, t.releases p = true) :
    complete ⟨listed, p :: waiting, false⟩ ts = complete ⟨node :: listed, waiting, false⟩ ts := by
  apply complete_congr (finish_release hnode)
  intro t ht
  exact feed_release hnode (h t ht)

/-! ## Operations that stay -/

/-- Whether an operation that arrives releases nothing of what is waiting. -/
def Keeps (op : BinaryOp) (waiting : List Pending) : Prop :=
  ∀ p ∈ waiting.head?, p.precedes op = false

theorem keeps_nil (op : BinaryOp) : Keeps op [] := by
  intro p hp
  simp at hp

theorem keeps_cons {op : BinaryOp} : Keeps op (p :: waiting) ↔ p.precedes op = false := by
  simp [Keeps]

theorem operate_of_keeps {op : BinaryOp} (h : Keeps op waiting) :
    operate op ⟨listed, waiting, false⟩ = ⟨listed, .binary op :: waiting, true⟩ := by
  cases waiting with
  | nil => rfl
  | cons p waiting =>
      rw [keeps_cons] at h
      simp [operate, h, list]

/-- What releases nothing under a tighter operation releases nothing under a looser one. -/
theorem Keeps.tighten {op op' : BinaryOp} (h : Keeps op waiting)
    (hrank : (Pending.binary op).rank < (Pending.binary op').rank) : Keeps op' waiting := by
  intro p hp
  have hkeep := h p hp
  simp only [Pending.precedes, Bool.or_eq_false_iff, decide_eq_false_iff_not, Nat.not_lt,
    Bool.and_eq_false_iff] at hkeep ⊢
  exact ⟨by omega, .inl (by omega)⟩

end Yard

/-! ## One equation for each rule -/

open Yard

/-- What a phrase needs of the operations that wait for it: that its own stay apart from them. -/
def Phrase.Fits : Phrase → List Pending → Prop
  | .sum, waiting | .terms _, waiting => Keeps .add waiting
  | .product, waiting | .factors _, waiting => Keeps .mul waiting
  | .unary, waiting | .power, waiting => Keeps .pow waiting
  | .application, _ | .primary, _ => True

def Yard.holding (a : Expr) (listed : List Node) (waiting : List Pending) : Yard :=
  ⟨a.postorder.reverse ++ listed, waiting, false⟩

/-- The yard at the start of a phrase. -/
def Phrase.yard : Phrase → List Node → List Pending → Yard
  | .terms a, listed, waiting | .factors a, listed, waiting => holding a listed waiting
  | _, listed, waiting => ⟨listed, waiting, true⟩

theorem releases_call (t : Token) (f : Elementary) : t.releases (.call f) = true := by
  cases t with
  | operation op => cases op <;> rfl
  | _ => rfl

theorem rank_le_two {op : BinaryOp} (h : op ≠ .pow) : (Pending.binary op).rank ≤ 2 := by
  cases op with
  | pow => exact absurd rfl h
  | _ => decide

theorem precedes_of_rank_le {op : BinaryOp} {p : Pending} (hop : op ≠ .pow)
    (h : (Pending.binary op).rank ≤ p.rank) : p.precedes op = true := by
  simp only [Pending.precedes, hop, ne_eq, not_false_eq_true, decide_true, Bool.and_true,
    Bool.or_eq_true, decide_eq_true_eq]
  omega

theorem releases_of_two_le_rank {t : Token} {p : Pending} (h : t.isPower = false)
    (hrank : 2 ≤ p.rank) : t.releases p = true := by
  cases t with
  | operation op =>
      have hop : op ≠ .pow := by
        rintro rfl
        exact absurd h (by decide)
      exact precedes_of_rank_le hop (Nat.le_trans (rank_le_two hop) hrank)
  | rightParen => rfl
  | _ => exact precedes_of_rank_le (by decide) hrank

theorem releases_of_one_le_rank {t : Token} {p : Pending} (hpow : t.isPower = false)
    (hfactor : t.isFactor = false) (hrank : 1 ≤ p.rank) : t.releases p = true := by
  cases t with
  | operation op =>
      cases op with
      | add => exact precedes_of_rank_le (by decide) hrank
      | sub => exact precedes_of_rank_le (by decide) hrank
      | mul => exact absurd hfactor (by decide)
      | div => exact absurd hfactor (by decide)
      | pow => exact absurd hpow (by decide)
  | rightParen => rfl
  | _ => exact absurd hfactor (by simp [Token.isFactor, Token.startsOperand])

variable {listed : List Node} {waiting : List Pending} {ts rest : List Token} {a b : Expr}

/-- A tree whose operation waits on the left of it is listed with the operation as soon as the next
token releases it. -/
theorem Yard.complete_holding_neg (hstop : Stops Token.isPower rest) :
    (holding a listed (.neg :: waiting)).complete rest =
      (holding (.neg a) listed waiting).complete rest := by
  have hrelease : ∀ t ∈ rest.head?, t.releases .neg = true := by
    intro t ht
    exact releases_of_two_le_rank (hstop t ht) (by decide)
  rw [holding, complete_release rfl hrelease, holding]
  simp [postorder]

theorem Yard.complete_holding_call (f : Elementary) :
    (holding a listed (.call f :: waiting)).complete rest =
      (holding (.call f a) listed waiting).complete rest := by
  rw [holding, complete_release rfl (fun t _ ↦ releases_call t f), holding]
  simp [postorder]

theorem Yard.complete_holding_binary {op : BinaryOp}
    (h : ∀ t ∈ rest.head?, t.releases (.binary op) = true) :
    (holding b (a.postorder.reverse ++ listed) (.binary op :: waiting)).complete rest =
      (holding (.binary op a b) listed waiting).complete rest := by
  rw [holding, complete_release rfl h, holding]
  simp [postorder]

theorem Yard.complete_holding_operation {op : BinaryOp} (h : Keeps op waiting) :
    (holding a listed waiting).complete (.operation op :: ts) =
      complete ⟨a.postorder.reverse ++ listed, .binary op :: waiting, true⟩ ts := by
  apply complete_of_feed
  simp [feed, holding, operate_of_keeps h]

theorem Yard.complete_holding_right {op : BinaryOp} (hkeeps : Keeps op waiting)
    (hright : complete ⟨a.postorder.reverse ++ listed, .binary op :: waiting, true⟩ ts =
      (holding b (a.postorder.reverse ++ listed) (.binary op :: waiting)).complete rest)
    (hrelease : ∀ t ∈ rest.head?, t.releases (.binary op) = true) :
    (holding a listed waiting).complete (.operation op :: ts) =
      (holding (.binary op a b) listed waiting).complete rest :=
  calc (holding a listed waiting).complete (.operation op :: ts)
      = complete ⟨a.postorder.reverse ++ listed, .binary op :: waiting, true⟩ ts :=
        complete_holding_operation hkeeps
    _ = (holding b (a.postorder.reverse ++ listed) (.binary op :: waiting)).complete rest := hright
    _ = (holding (.binary op a b) listed waiting).complete rest :=
        complete_holding_binary hrelease

/-- An operand directly after an operand is a factor. -/
theorem Yard.complete_holding_operand {t : Token} (hstart : t.startsOperand = true)
    (h : Keeps .mul waiting) :
    (holding a listed waiting).complete (t :: ts) =
      complete ⟨a.postorder.reverse ++ listed, .binary .mul :: waiting, true⟩ (t :: ts) := by
  have hfeed : (holding a listed waiting).feed t =
      feed ⟨a.postorder.reverse ++ listed, .binary .mul :: waiting, true⟩ t := by
    cases t with
    | operation op => simp [Token.startsOperand] at hstart
    | rightParen => simp [Token.startsOperand] at hstart
    | _ => simp [feed, holding, juxtapose, operate_of_keeps h]
  rw [complete_cons, complete_cons, hfeed]

/-- A group closes as an operand. If a function waits for it, the function is listed at once, which
makes no difference to what follows. -/
theorem Yard.complete_holding_rightParen :
    (holding a listed (.group :: waiting)).complete (.rightParen :: rest) =
      (holding a listed waiting).complete rest := by
  cases waiting with
  | nil => exact complete_of_feed rfl rest
  | cons p waiting =>
      cases p with
      | call f =>
          rw [complete_holding_call, holding]
          apply complete_of_feed
          simp [feed, holding, close, list, postorder]
      | _ => exact complete_of_feed rfl rest

/-- Reading a phrase, the yard goes on as if the tree of the phrase had been listed. -/
theorem Reads.complete_eq {p : Phrase} (h : Reads p ts a rest) (hfits : p.Fits waiting) :
    (p.yard listed waiting).complete ts = (holding a listed waiting).complete rest := by
  induction h generalizing listed waiting with
  | number v ts => exact complete_of_feed rfl ts
  | pi ts => exact complete_of_feed rfl ts
  | euler ts => exact complete_of_feed rfl ts
  | symbol ts hname hpi he =>
      apply complete_of_feed
      simp [feed, hname, nameNode, hpi, he, Phrase.yard, juxtapose, operand, holding, postorder]
  | group _ ih =>
      rw [← complete_holding_rightParen, ← ih (keeps_cons.mpr rfl)]
      exact complete_of_feed rfl _
  | call hname _ ih =>
      rw [← complete_holding_call, ← ih trivial]
      apply complete_of_feed
      simp [feed, hname, Phrase.yard, juxtapose, hold]
  | @callNeg s f ts rest a hname hunary ih =>
      have hfunction : feed ⟨listed, waiting, true⟩ (.name s) =
          .ok ⟨listed, .call f :: waiting, true⟩ := by
        simp [feed, hname, juxtapose, hold]
      calc complete ⟨listed, waiting, true⟩ (.name s :: .operation .sub :: ts)
          = complete ⟨listed, .call f :: waiting, true⟩ (.operation .sub :: ts) :=
            complete_of_feed hfunction _
        _ = complete ⟨listed, .neg :: .call f :: waiting, true⟩ ts := complete_of_feed rfl ts
        _ = (holding a listed (.neg :: .call f :: waiting)).complete rest :=
            ih (keeps_cons.mpr rfl)
        _ = (holding (.neg a) listed (.call f :: waiting)).complete rest :=
            complete_holding_neg hunary.ends
        _ = (holding (.call f (.neg a)) listed waiting).complete rest := complete_holding_call f
  | primary _ ih => exact ih trivial
  | @pow ts mid rest a b _ hunary ihleft ihright =>
      have hrelease : ∀ t ∈ rest.head?, t.releases (.binary .pow) = true := by
        intro t ht
        exact releases_of_two_le_rank (hunary.ends t ht) (by decide)
      calc complete ⟨listed, waiting, true⟩ ts
          = (holding a listed waiting).complete (.operation .pow :: mid) := ihleft trivial
        _ = (holding (.binary .pow a b) listed waiting).complete rest :=
            complete_holding_right hfits (ihright (keeps_cons.mpr rfl)) hrelease
  | base _ _ ih => exact ih trivial
  | neg hunary ih =>
      rw [← complete_holding_neg hunary.ends, ← ih (keeps_cons.mpr rfl)]
      exact complete_of_feed rfl _
  | unsigned _ ih => exact ih hfits
  | product _ _ ihleft ihrest =>
      rw [← ihrest hfits]
      exact ihleft (hfits.tighten (by decide))
  | @factor op ts mid rest a b c hop hunary _ ihright ihrest =>
      have hkeeps : Keeps op waiting := by rcases hop with rfl | rfl <;> exact hfits
      have hfits' : Keeps .pow (.binary op :: waiting) := by
        rcases hop with rfl | rfl <;> exact keeps_cons.mpr rfl
      have hrank : 2 ≤ (Pending.binary op).rank := by rcases hop with rfl | rfl <;> decide
      have hrelease : ∀ t ∈ mid.head?, t.releases (.binary op) = true := by
        intro t ht
        exact releases_of_two_le_rank (hunary.ends t ht) hrank
      exact (complete_holding_right hkeeps (ihright hfits') hrelease).trans (ihrest hfits)
  | @juxtaposed t ts mid rest a b c hstart hpower _ ihright ihrest =>
      calc (holding a listed waiting).complete (t :: ts)
          = complete ⟨a.postorder.reverse ++ listed, .binary .mul :: waiting, true⟩ (t :: ts) :=
            complete_holding_operand hstart hfits
        _ = (holding b (a.postorder.reverse ++ listed) (.binary .mul :: waiting)).complete mid :=
            ihright (keeps_cons.mpr rfl)
        _ = (holding (.binary .mul a b) listed waiting).complete mid :=
            complete_holding_binary fun t ht ↦
              releases_of_two_le_rank (hpower.ends t ht) (by decide)
        _ = (holding c listed waiting).complete rest := ihrest hfits
  | lastFactor _ => rfl
  | sum _ _ ihleft ihrest =>
      rw [← ihrest hfits]
      exact ihleft (hfits.tighten (by decide))
  | @term op ts mid rest a b c hop hproduct _ ihright ihrest =>
      have hkeeps : Keeps op waiting := by rcases hop with rfl | rfl <;> exact hfits
      have hfits' : Keeps .mul (.binary op :: waiting) := by
        rcases hop with rfl | rfl <;> exact keeps_cons.mpr rfl
      have hrank : 1 ≤ (Pending.binary op).rank := by rcases hop with rfl | rfl <;> decide
      have hrelease : ∀ t ∈ mid.head?, t.releases (.binary op) = true := by
        intro t ht
        exact releases_of_one_le_rank (hproduct.ends.1 t ht) (hproduct.ends.2 t ht) hrank
      exact (complete_holding_right hkeeps (ihright hfits') hrelease).trans (ihrest hfits)
  | lastTerm _ => rfl

theorem Reads.run_eq (h : Reads .sum ts a []) : Yard.run ts = .ok a.postorder := by
  have hcomplete : complete ⟨[], [], true⟩ ts = (holding a [] []).complete [] :=
    h.complete_eq (keeps_nil .add)
  refine hcomplete.trans ?_
  simp [holding, complete_nil, finish, Yard.list]

end CurveSearch.Expr
