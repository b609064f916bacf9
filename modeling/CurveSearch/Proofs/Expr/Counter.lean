import CurveSearch.Proofs.Expr.YardReading

/-!
# Counting operands and parentheses

Whether tokens form an expression, and which error is the first if they do not, can be told without
the yard. A counter that knows whether an operand is due and how many parentheses are open says as
much. It is what is left of the yard when one forgets the nodes that are listed and the operations
that wait, so the two refuse the same tokens for the same reason.
-/

namespace CurveSearch.Expr

structure Counter where
  operandDue : Bool := true
  depth : Nat := 0

namespace Counter

def feed (c : Counter) : Token → Except SyntaxError Counter
  | .number _ => .ok { c with operandDue := false }
  | .name s => .ok { c with operandDue := (Elementary.ofName? s).isSome }
  | .leftParen => .ok ⟨true, c.depth + 1⟩
  | .rightParen =>
      if c.operandDue then .error (.missingOperand ")")
      else if c.depth = 0 then .error .unbalanced
      else .ok { c with depth := c.depth - 1 }
  | .operation op =>
      if c.operandDue then
        if op = .add ∨ op = .sub then .ok c else .error (.missingOperand op.sign.toString)
      else .ok { c with operandDue := true }

def finish (c : Counter) : Except SyntaxError Unit :=
  if c.operandDue then .error (.missingOperand "end of input")
  else if 0 < c.depth then .error .unbalanced
  else .ok ()

def complete (c : Counter) (ts : List Token) : Except SyntaxError Unit := do
  (← ts.foldlM feed c).finish

def check (tokens : List Token) : Except SyntaxError Unit := complete {} tokens

theorem complete_cons (c : Counter) (t : Token) (ts : List Token) :
    c.complete (t :: ts) = c.feed t >>= fun c' ↦ c'.complete ts := by
  rw [complete, List.foldlM_cons, bind_assoc]
  rfl

theorem operandDue_feed {c c' : Counter} {t : Token} (h : c.feed t = .ok c') :
    c'.operandDue = t.leavesDue := by
  cases t with
  | number v | name s | leftParen =>
      cases h
      rfl
  | rightParen =>
      simp only [feed] at h
      split at h
      · exact nomatch h
      · split at h
        · exact nomatch h
        · next hdue _ =>
            cases h
            simpa [Token.leavesDue] using hdue
  | operation op =>
      simp only [feed] at h
      split at h
      · next hdue =>
          split at h
          · cases h
            exact hdue
          · exact nomatch h
      · cases h
        rfl

theorem feed_ne_malformed (c : Counter) (t : Token) : c.feed t ≠ .error .malformed := by
  cases t with
  | number v | name s | leftParen => exact nofun
  | rightParen =>
      simp only [feed]
      split
      · exact nofun
      · split <;> exact nofun
  | operation op =>
      simp only [feed]
      split
      · split <;> exact nofun
      · exact nofun

theorem complete_ne_malformed (c : Counter) (ts : List Token) :
    c.complete ts ≠ .error .malformed := by
  induction ts generalizing c with
  | nil =>
      change c.finish ≠ _
      simp only [finish]
      split
      · exact nofun
      · split <;> exact nofun
  | cons t ts ih =>
      rw [complete_cons]
      cases hfeed : c.feed t with
      | error err =>
          rintro ⟨⟩
          exact feed_ne_malformed c t hfeed
      | ok c' => exact ih c'

end Counter

/-! ## The yard as a counter -/

namespace Yard

/-- What a counter sees of a yard. -/
def counter (y : Yard) : Counter := ⟨y.operandDue, y.waiting.count .group⟩

theorem count_dropWhile_precedes (op : BinaryOp) (waiting : List Pending) :
    (waiting.dropWhile (·.precedes op)).count .group = waiting.count .group := by
  induction waiting with
  | nil => rfl
  | cons p waiting ih =>
      rw [List.dropWhile_cons]
      split
      · next h =>
          have hp : p ≠ .group := by
            rintro rfl
            cases op <;> exact absurd h (by decide)
          rw [ih, List.count_cons_of_ne hp]
      · rfl

theorem counter_operate (op : BinaryOp) (y : Yard) :
    (y.operate op).counter = ⟨true, y.counter.depth⟩ := by
  simp [counter, operate, count_dropWhile_precedes]

theorem depth_juxtapose (y : Yard) : y.juxtapose.counter.depth = y.counter.depth := by
  unfold juxtapose
  split
  · rfl
  · rw [counter_operate]

theorem dropWhile_ne_group (waiting : List Pending) :
    (waiting.dropWhile (· ≠ .group) = [] ∧ waiting.count .group = 0) ∨
    ∃ outer, waiting.dropWhile (· ≠ .group) = .group :: outer ∧
      waiting.count .group = outer.count .group + 1 := by
  induction waiting with
  | nil => exact .inl ⟨rfl, rfl⟩
  | cons p waiting ih =>
      by_cases hp : p = .group
      · subst hp
        exact .inr ⟨waiting, by simp, by simp⟩
      · simpa [hp] using ih

theorem counter_close {y : Yard} (h : y.operandDue = false) :
    y.close.map counter = y.counter.feed .rightParen := by
  rcases dropWhile_ne_group y.waiting with ⟨hnil, hcount⟩ | ⟨outer, hcons, hcount⟩
  · unfold close
    rw [hnil]
    simp [Except.map, Counter.feed, counter, h, hcount]
  · have hfeed : y.counter.feed .rightParen = .ok ⟨false, outer.count .group⟩ := by
      simp [Counter.feed, counter, h, hcount]
    rw [hfeed]
    unfold close
    rw [hcons]
    cases outer with
    | nil => rfl
    | cons p outer => cases p <;> simp [Except.map, counter]

/-- A token does to the counter of a yard what it does to the yard. -/
theorem counter_feed (y : Yard) (t : Token) : (y.feed t).map counter = y.counter.feed t := by
  have hdepth := depth_juxtapose y
  cases t with
  | number v => simp_all [feed, operand, Except.map, Counter.feed, counter]
  | name s =>
      cases hs : Elementary.ofName? s <;>
        simp_all [feed, operand, hold, Except.map, Counter.feed, counter]
  | leftParen => simp_all [feed, hold, Except.map, Counter.feed, counter]
  | rightParen =>
      cases hdue : y.operandDue with
      | true => simp [feed, hdue, Except.map, Counter.feed, counter]
      | false => simpa [feed, hdue] using counter_close hdue
  | operation op =>
      cases hdue : y.operandDue with
      | true => cases op <;> simp [feed, hdue, hold, Except.map, Counter.feed, counter]
      | false =>
          have hoperate := counter_operate op y
          simp_all [feed, Except.map, Counter.feed, counter]

theorem counter_finish (y : Yard) : y.finish.map (fun _ ↦ ()) = y.counter.finish := by
  by_cases hgroup : .group ∈ y.waiting
  · have hpos : 0 < y.waiting.count .group := List.count_pos_iff.mpr hgroup
    cases hdue : y.operandDue <;>
      simp [finish, hdue, hgroup, Except.map, Counter.finish, counter]
  · have hzero : y.waiting.count .group = 0 := List.count_eq_zero.mpr hgroup
    cases hdue : y.operandDue <;>
      simp [finish, hdue, hgroup, Except.map, Counter.finish, counter]

theorem counter_complete (y : Yard) (ts : List Token) :
    (y.complete ts).map (fun _ ↦ ()) = y.counter.complete ts := by
  induction ts generalizing y with
  | nil => exact counter_finish y
  | cons t ts ih =>
      rw [complete_cons, Counter.complete_cons, ← counter_feed]
      cases y.feed t with
      | error err => rfl
      | ok y' => exact ih y'

theorem operandDue_feed {y y' : Yard} {t : Token} (h : y.feed t = .ok y') :
    y'.operandDue = t.leavesDue := by
  have hfeed := counter_feed y t
  rw [h] at hfeed
  exact Counter.operandDue_feed hfeed.symm

/-- Pluses that stand where an operand is due make no difference. -/
theorem complete_dropPluses (y : Yard) (ts : List Token) :
    y.complete (dropPluses y.operandDue ts) = y.complete ts := by
  induction ts generalizing y with
  | nil => cases y.operandDue <;> rfl
  | cons t ts ih =>
      have hkept : y.complete (t :: dropPluses t.leavesDue ts) = y.complete (t :: ts) := by
        rw [complete_cons, complete_cons]
        cases hfeed : y.feed t with
        | error err => rfl
        | ok y' =>
            have hrest := ih y'
            rw [operandDue_feed hfeed] at hrest
            exact hrest
      by_cases hplus : y.operandDue = true ∧ t = .operation .add
      · obtain ⟨hdue, rfl⟩ := hplus
        have hskip : y.complete (.operation .add :: ts) = y.complete ts := by
          apply complete_of_feed
          simp [feed, hdue]
        rw [hskip, ← ih y, hdue]
        rfl
      · rw [← hkept, dropPluses]
        intro hdue ht
        exact hplus ⟨hdue, ht⟩

end Yard

end CurveSearch.Expr
