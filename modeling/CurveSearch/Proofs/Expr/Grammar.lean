import CurveSearch.Expr.Yard

/-!
# The grammar of expressions

Expressions are sums of products of powers. A reading starts at the front of a list of tokens, takes
as many of them as its phrase can, and leaves the rest. The phrases are

* `sum := product (('+' | '-') product)*`, from left to right;
* `product := unary (('*' | '/') unary | power)*`, from left to right, where a power stands directly
  after an operand if it starts with a number, a name or a parenthesis;
* `unary := '-' unary | power`;
* `power := application ('^' unary)?`;
* `application := function application | function '-' unary | primary`;
* `primary := number | pi | e | variable | '(' sum ')'`.

The two repetitions are phrases of their own that carry the operand on their left. A plus where an
operand is due belongs to no phrase; such signs are dropped before the list is read.
-/

namespace CurveSearch.Expr

namespace Token

/-- Whether an operand is due after a token. -/
def leavesDue : Token → Bool
  | .number _ => false
  | .name s => (Elementary.ofName? s).isSome
  | .operation _ => true
  | .leftParen => true
  | .rightParen => false

/-- Whether an operand starts with a token. A minus may stand before an operand, not in it. -/
def startsOperand : Token → Bool
  | .number _ | .name _ | .leftParen => true
  | _ => false

/-- Whether a power goes on with a token. -/
def isPower : Token → Bool
  | .operation .pow => true
  | _ => false

/-- Whether a product goes on with a token. -/
def isFactor : Token → Bool
  | .operation .mul | .operation .div => true
  | t => t.startsOperand

/-- Whether a sum goes on with a token. -/
def isTerm : Token → Bool
  | .operation .add | .operation .sub => true
  | _ => false

end Token

/-- The tokens without the pluses that stand where an operand is due. -/
def dropPluses : Bool → List Token → List Token
  | _, [] => []
  | true, .operation .add :: ts => dropPluses true ts
  | _, t :: ts => t :: dropPluses t.leavesDue ts

def Stops (kind : Token → Bool) (ts : List Token) : Prop := ∀ t ∈ ts.head?, kind t = false

/-- The phrases of the grammar. -/
inductive Phrase where
  | sum
  /-- The rest of a sum after its left operand. -/
  | terms (left : Expr)
  | product
  /-- The rest of a product after its left operand. -/
  | factors (left : Expr)
  | unary
  | power
  | application
  | primary

/-- Reading a phrase at the front of a list: the tree it spells and the tokens it leaves. Where a
phrase may go on it has to. -/
inductive Reads : Phrase → List Token → Expr → List Token → Prop
  | number (v : Float) (ts : List Token) : Reads .primary (.number v :: ts) (.number v) ts
  | pi (ts : List Token) : Reads .primary (.name "pi" :: ts) (.number 3.141592653589793) ts
  | euler (ts : List Token) : Reads .primary (.name "e" :: ts) (.number 2.718281828459045) ts
  | symbol {s : String} (ts : List Token) :
      Elementary.ofName? s = none → s ≠ "pi" → s ≠ "e" →
      Reads .primary (.name s :: ts) (.symbol s) ts
  | group {ts rest : List Token} {a : Expr} :
      Reads .sum ts a (.rightParen :: rest) → Reads .primary (.leftParen :: ts) a rest
  | call {s : String} {f : Elementary} {ts rest : List Token} {a : Expr} :
      Elementary.ofName? s = some f → Reads .application ts a rest →
      Reads .application (.name s :: ts) (.call f a) rest
  | callNeg {s : String} {f : Elementary} {ts rest : List Token} {a : Expr} :
      Elementary.ofName? s = some f → Reads .unary ts a rest →
      Reads .application (.name s :: .operation .sub :: ts) (.call f (.neg a)) rest
  | primary {ts rest : List Token} {a : Expr} :
      Reads .primary ts a rest → Reads .application ts a rest
  | pow {ts mid rest : List Token} {a b : Expr} :
      Reads .application ts a (.operation .pow :: mid) → Reads .unary mid b rest →
      Reads .power ts (.binary .pow a b) rest
  | base {ts rest : List Token} {a : Expr} :
      Reads .application ts a rest → Stops Token.isPower rest → Reads .power ts a rest
  | neg {ts rest : List Token} {a : Expr} :
      Reads .unary ts a rest → Reads .unary (.operation .sub :: ts) (.neg a) rest
  | unsigned {ts rest : List Token} {a : Expr} :
      Reads .power ts a rest → Reads .unary ts a rest
  | product {ts mid rest : List Token} {a b : Expr} :
      Reads .unary ts a mid → Reads (.factors a) mid b rest → Reads .product ts b rest
  | factor {op : BinaryOp} {ts mid rest : List Token} {a b c : Expr} :
      op = .mul ∨ op = .div → Reads .unary ts b mid →
      Reads (.factors (.binary op a b)) mid c rest →
      Reads (.factors a) (.operation op :: ts) c rest
  | juxtaposed {t : Token} {ts mid rest : List Token} {a b c : Expr} :
      t.startsOperand = true → Reads .power (t :: ts) b mid →
      Reads (.factors (.binary .mul a b)) mid c rest →
      Reads (.factors a) (t :: ts) c rest
  | lastFactor {ts : List Token} {a : Expr} :
      Stops Token.isFactor ts → Reads (.factors a) ts a ts
  | sum {ts mid rest : List Token} {a b : Expr} :
      Reads .product ts a mid → Reads (.terms a) mid b rest → Reads .sum ts b rest
  | term {op : BinaryOp} {ts mid rest : List Token} {a b c : Expr} :
      op = .add ∨ op = .sub → Reads .product ts b mid →
      Reads (.terms (.binary op a b)) mid c rest →
      Reads (.terms a) (.operation op :: ts) c rest
  | lastTerm {ts : List Token} {a : Expr} :
      Stops Token.isTerm ts → Reads (.terms a) ts a ts

/-! ## What follows a phrase -/

theorem stops_nil (kind : Token → Bool) : Stops kind [] := by
  intro t ht
  simp at ht

theorem stops_cons {kind : Token → Bool} {t : Token} {ts : List Token} :
    Stops kind (t :: ts) ↔ kind t = false := by
  simp [Stops]

/-- What the tokens after a phrase do not go on with. The rest of a sum or product takes up where
its left operand stopped. -/
def Phrase.Ends : Phrase → List Token → List Token → Prop
  | .primary, _, _ => True
  | .application, _, _ => True
  | .power, _, rest => Stops Token.isPower rest
  | .unary, _, rest => Stops Token.isPower rest
  | .factors _, ts, rest =>
      Stops Token.isPower ts → Stops Token.isPower rest ∧ Stops Token.isFactor rest
  | .product, _, rest => Stops Token.isPower rest ∧ Stops Token.isFactor rest
  | .terms _, ts, rest =>
      Stops Token.isPower ts ∧ Stops Token.isFactor ts →
        (Stops Token.isPower rest ∧ Stops Token.isFactor rest) ∧ Stops Token.isTerm rest
  | .sum, _, rest =>
      (Stops Token.isPower rest ∧ Stops Token.isFactor rest) ∧ Stops Token.isTerm rest

theorem Reads.ends {p : Phrase} {ts rest : List Token} {a : Expr} (h : Reads p ts a rest) :
    p.Ends ts rest := by
  induction h with
  | number | pi | euler | symbol | group | call | callNeg | primary => trivial
  | pow _ _ _ ih => exact ih
  | base _ hstop => exact hstop
  | neg _ ih => exact ih
  | unsigned _ ih => exact ih
  | product _ _ ihleft ihrest => exact ihrest ihleft
  | factor _ _ _ ihright ihrest =>
      intro _
      exact ihrest ihright
  | juxtaposed _ _ _ ihright ihrest =>
      intro _
      exact ihrest ihright
  | lastFactor hstop =>
      intro hpow
      exact ⟨hpow, hstop⟩
  | sum _ _ ihleft ihrest => exact ihrest ihleft
  | term _ _ _ ihright ihrest =>
      intro _
      exact ihrest ihright
  | lastTerm hstop =>
      intro hfactor
      exact ⟨hfactor, hstop⟩

/-- After a whole sum comes the end or a closing parenthesis. -/
theorem Reads.sum_rest {ts rest : List Token} {a : Expr} (h : Reads .sum ts a rest) :
    rest = [] ∨ ∃ rest', rest = .rightParen :: rest' := by
  obtain ⟨⟨hpow, hfactor⟩, hterm⟩ := h.ends
  cases rest with
  | nil => exact .inl rfl
  | cons t rest =>
      rw [stops_cons] at hpow hfactor hterm
      cases t with
      | rightParen => exact .inr ⟨rest, rfl⟩
      | number v => exact nomatch hfactor
      | name s => exact nomatch hfactor
      | leftParen => exact nomatch hfactor
      | operation op =>
          cases op with
          | add => exact nomatch hterm
          | sub => exact nomatch hterm
          | mul => exact nomatch hfactor
          | div => exact nomatch hfactor
          | pow => exact nomatch hpow

end CurveSearch.Expr
