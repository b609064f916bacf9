import CurveSearch.Proofs.Binary64.Opposite
import CurveSearch.Proofs.Expr.Failure
import CurveSearch.Proofs.Expr.Reprinting

/-!
# Which trees survive printing

Any tree can be printed, also one that no text spells. Its printed form reads back as an equal tree
exactly if the numbers are finite with a clear sign bit, the names can stand for themselves, and no
negation is the base of a power. That nothing else reads back is a matter of counting. Each minus
sign of a text becomes a negation or a subtraction of the tree that it spells, so a tree that is
read back has printed no other minus signs, in its numbers or its names.
-/

namespace CurveSearch.Expr

/-! ## Counting minus signs -/

/-- The negations and subtractions of a tree. -/
def minuses : Expr → ℕ
  | .number _ | .symbol _ => 0
  | .neg a => a.minuses + 1
  | .binary op a b => a.minuses + b.minuses + if op = .sub then 1 else 0
  | .call _ a => a.minuses

/-- The negations and subtractions of the operand on the left of a phrase. -/
def Phrase.minuses : Phrase → ℕ
  | .terms a | .factors a => a.minuses
  | _ => 0

namespace Token

def isMinusSign (c : Char) : Bool := c = '-' || c = '−'

def isMinus : Token → Bool
  | .operation op => op = .sub
  | _ => false

variable {offset : ℕ} {cs : List Char} {ts : List Token}

theorem isMinusSign_eq_false {kind : Char → Bool} (hhyphen : kind '-' = false)
    (hminus : kind '−' = false) {c : Char} (h : kind c = true) : isMinusSign c = false := by
  rw [Bool.eq_false_iff]
  intro hc
  simp only [isMinusSign, Bool.or_eq_true, decide_eq_true_eq] at hc
  rcases hc with rfl | rfl
  · exact absurd h (Bool.eq_false_iff.mp hhyphen)
  · exact absurd h (Bool.eq_false_iff.mp hminus)

theorem countP_isMinusSign_eq_zero {kind : Char → Bool} (hhyphen : kind '-' = false)
    (hminus : kind '−' = false) (h : ∀ c ∈ cs, kind c = true) : cs.countP isMinusSign = 0 := by
  rw [List.countP_eq_zero]
  intro c hc
  exact Bool.eq_false_iff.mp (isMinusSign_eq_false hhyphen hminus (h c hc))

theorem isMinus_of_ofSign? {c : Char} {t : Token} (h : ofSign? c = some t) :
    t.isMinus = isMinusSign c := by
  unfold ofSign? at h
  split at h <;> cases h <;> decide

theorem countP_of_scan (h : scan offset cs = .ok ts) :
    cs.countP isMinusSign = ts.countP isMinus := by
  induction cs using text_induction generalizing offset ts with
  | nil =>
      rw [scan] at h
      cases h
      rfl
  | blank c cs hblank ih =>
      rw [scan_blank hblank] at h
      have hc := isMinusSign_eq_false (by decide) (by decide) hblank
      rw [List.countP_cons_of_neg (Bool.eq_false_iff.mp hc), ih h]
  | sign c cs t hsign hblank ih =>
      rw [scan_sign hsign hblank] at h
      obtain ⟨ts, hts, rfl⟩ := exists_of_map_cons_eq_ok h
      rw [List.countP_cons, List.countP_cons, ih hts, isMinus_of_ofSign? hsign]
  | numeral c cs rest hcs hrest ih =>
      rw [scan_numeral hcs hrest] at h
      cases hv : Decimal.read? (c :: cs) with
      | none =>
          rw [hv] at h
          cases h
      | some v =>
          rw [hv] at h
          obtain ⟨ts, hts, rfl⟩ := exists_of_map_cons_eq_ok h
          have hnone := countP_isMinusSign_eq_zero (by decide) (by decide) hcs
          rw [List.countP_append, hnone, Nat.zero_add, ih hts]
          rfl
  | name c cs rest hc hcs hrest ih =>
      rw [scan_name hc hcs hrest] at h
      obtain ⟨ts, hts, rfl⟩ := exists_of_map_cons_eq_ok h
      have hhead := isMinusSign_eq_false (by decide) (by decide) hc
      have htail := countP_isMinusSign_eq_zero (by decide) (by decide) hcs
      rw [List.cons_append, List.countP_cons_of_neg (Bool.eq_false_iff.mp hhead),
        List.countP_append, htail, Nat.zero_add, ih hts]
      rfl
  | foreign c cs hc =>
      rw [scan_foreign hc] at h
      cases h

theorem countP_operation (op : BinaryOp) (ts : List Token) :
    (Token.operation op :: ts).countP isMinus = ts.countP isMinus + if op = .sub then 1 else 0 := by
  simp [List.countP_cons, isMinus]

end Token

theorem countP_dropPluses (due : Bool) (ts : List Token) :
    (dropPluses due ts).countP Token.isMinus = ts.countP Token.isMinus := by
  induction ts generalizing due with
  | nil => cases due <;> rfl
  | cons t ts ih =>
      rw [dropPluses.eq_def]
      split
      · next heq => exact nomatch heq
      · next heq =>
          cases heq
          rw [ih, List.countP_cons_of_neg]
          decide
      · next heq =>
          cases heq
          rw [List.countP_cons, List.countP_cons, ih]

/-- Each minus that a phrase takes becomes a node of its tree, besides those of its left operand. -/
theorem Reads.countP_isMinus {p : Phrase} {ts rest : List Token} {a : Expr}
    (h : Reads p ts a rest) :
    ts.countP Token.isMinus + p.minuses = rest.countP Token.isMinus + a.minuses := by
  induction h with
  | number | pi | euler | symbol | lastFactor | lastTerm => rfl
  | group _ ih => exact ih
  | call _ _ ih => exact ih
  | primary _ ih => exact ih
  | base _ _ ih => exact ih
  | unsigned _ ih => exact ih
  | callNeg _ _ ih =>
      change (Token.operation .sub :: _).countP Token.isMinus + 0 = _
      rw [Token.countP_operation, if_pos rfl]
      simp only [Phrase.minuses, minuses] at *
      omega
  | neg _ ih =>
      rw [Token.countP_operation, if_pos rfl]
      simp only [Phrase.minuses, minuses] at *
      omega
  | pow _ _ ihleft ihright =>
      rw [Token.countP_operation, if_neg (by decide)] at ihleft
      simp only [Phrase.minuses, minuses] at *
      rw [if_neg (by decide)]
      omega
  | product _ _ ihleft ih | sum _ _ ihleft ih =>
      simp only [Phrase.minuses] at *
      omega
  | factor _ _ _ ihright ih | term _ _ _ ihright ih =>
      rw [Token.countP_operation]
      simp only [Phrase.minuses, minuses] at *
      omega
  | juxtaposed _ _ _ ihright ih =>
      simp only [Phrase.minuses, minuses, if_neg (show ¬ BinaryOp.mul = .sub by decide)] at *
      omega

/-- The minus signs of a text become the negations and subtractions of its tree. -/
theorem countP_of_parse {text : String} {e : Expr} (h : parse text = .ok e) :
    text.toList.countP Token.isMinusSign = e.minuses := by
  obtain ⟨ts, hscan, htree⟩ := exists_tokens_of_parse h
  have hreads := (reads_of_ofTokens htree).countP_isMinus
  rw [countP_dropPluses] at hreads
  rw [Token.countP_of_scan hscan]
  simpa [Phrase.minuses] using hreads

/-! ## Minus signs that are printed -/

theorem countP_print_neg (a : Expr) :
    (Expr.neg a).print.countP Token.isMinusSign = a.print.countP Token.isMinusSign + 1 := by
  have hopen : ['-', '('].countP Token.isMinusSign = 1 := by decide
  have hclose : [')'].countP Token.isMinusSign = 0 := by decide
  change (['-', '('] ++ a.print ++ [')']).countP Token.isMinusSign = _
  rw [List.countP_append, List.countP_append, hopen, hclose]
  omega

theorem countP_print_binary (op : BinaryOp) (a b : Expr) :
    (Expr.binary op a b).print.countP Token.isMinusSign =
      a.print.countP Token.isMinusSign + b.print.countP Token.isMinusSign +
        if op = .sub then 1 else 0 := by
  have hopen : ['('].countP Token.isMinusSign = 0 := by decide
  have hsign : [' ', op.sign, ' '].countP Token.isMinusSign = if op = .sub then 1 else 0 := by
    cases op <;> decide
  have hclose : [')'].countP Token.isMinusSign = 0 := by decide
  change (['('] ++ a.print ++ [' ', op.sign, ' '] ++ b.print ++ [')']).countP Token.isMinusSign = _
  simp only [List.countP_append, hopen, hsign, hclose]
  omega

theorem countP_print_call (f : Elementary) (a : Expr) :
    (Expr.call f a).print.countP Token.isMinusSign = a.print.countP Token.isMinusSign := by
  have hname : f.name.toList.countP Token.isMinusSign = 0 := by cases f <;> decide
  have hopen : ['('].countP Token.isMinusSign = 0 := by decide
  have hclose : [')'].countP Token.isMinusSign = 0 := by decide
  have hprint : (Expr.call f a).print = f.name.toList ++ ['('] ++ a.print ++ [')'] := by
    simp [print]
  rw [hprint]
  simp only [List.countP_append, hname, hopen, hclose]
  omega

theorem minuses_le_countP_print (e : Expr) : e.minuses ≤ e.print.countP Token.isMinusSign := by
  induction e with
  | number v => exact Nat.zero_le _
  | symbol s => exact Nat.zero_le _
  | neg a ih =>
      rw [minuses, countP_print_neg]
      omega
  | binary op a b iha ihb =>
      rw [minuses, countP_print_binary]
      omega
  | call f a ih =>
      rw [minuses, countP_print_call]
      exact ih

theorem countP_plain_pos {v : Float} (hfinite : v.isFinite = true)
    (hsign : Binary64.isSignMinus v = true) :
    0 < (Decimal.plain v).countP Token.isMinusSign := by
  obtain ⟨negative, m, q, hshape, -⟩ := Grid.shape_of_isFinite hfinite
  have hnegative : negative = true := by
    have hmagnitude := (Grid.magnitude_lt_iff v).mp hfinite
    unfold Binary64.shape at hshape
    simp only [if_pos hmagnitude, hsign] at hshape
    cases hshape
    rfl
  rw [Decimal.plain, hshape, hnegative]
  exact List.countP_pos_iff.mpr ⟨'-', List.mem_cons_self, by decide⟩

/-- A number that equals a literal and is printed without a sign is a literal. -/
theorem isLiteral_of_beq {v w : Float} (hv : Token.IsLiteral v) (h : (v == w) = true)
    (hplain : (Decimal.plain w).countP Token.isMinusSign = 0) : Token.IsLiteral w := by
  by_cases hzero : Grid.position v = 0
  · obtain ⟨-, hnan, hposition⟩ := Grid.beq_iff.mp h
    have hfinite : w.isFinite = true := by
      rw [Grid.isFinite_iff, ← hposition, hzero, abs_zero]
      exact ⟨hnan, Grid.limit_pos⟩
    refine .inl ⟨hfinite, ?_⟩
    rw [Bool.eq_false_iff]
    intro hsign
    exact (countP_plain_pos hfinite hsign).ne' hplain
  · rwa [← Grid.eq_of_beq h hzero]

theorem minuses_eq_of_same {a e : Expr} (h : a.same e = true) : a.minuses = e.minuses := by
  fun_induction same a e with
  | case1 | case2 => rfl
  | case3 a b ih => exact congrArg (· + 1) (ih h)
  | case4 op a b op' a' b' iha ihb =>
      simp only [Bool.and_eq_true, decide_eq_true_eq] at h
      rw [minuses, minuses, h.1.1, iha h.1.2, ihb h.2]
  | case5 f a g b ih =>
      simp only [Bool.and_eq_true] at h
      exact ih h.2
  | case6 => exact nomatch h

/-- A tree that equals a legible one is legible if it prints no minus signs but for its negations
and subtractions. -/
theorem isLegible_of_same {a e : Expr} (ha : a.IsLegible) (h : a.same e = true)
    (hcount : e.print.countP Token.isMinusSign = e.minuses) : e.IsLegible := by
  -- The count passes to the parts of `e`, since no part prints fewer minus signs than it has nodes
  -- that need one.
  induction e generalizing a with
  | number v =>
      cases a with
      | number w => exact isLiteral_of_beq ha h hcount
      | _ => cases h
  | symbol s =>
      cases a with
      | symbol r =>
          obtain rfl : r = s := of_decide_eq_true h
          exact ha
      | _ => cases h
  | neg b ih =>
      cases a with
      | neg a =>
          rw [countP_print_neg, minuses] at hcount
          have ha' : a.IsLegible := ha
          exact ih ha' h (by omega)
      | _ => cases h
  | binary op b c ihb ihc =>
      cases a with
      | binary op' a a' =>
          rw [countP_print_binary, minuses] at hcount
          have hb := minuses_le_countP_print b
          have hc := minuses_le_countP_print c
          simp only [same, Bool.and_eq_true] at h
          exact ⟨ihb ha.1 h.1.2 (by omega), ihc ha.2 h.2 (by omega)⟩
      | _ => cases h
  | call f b ih =>
      cases a with
      | call f' a =>
          rw [countP_print_call, minuses] at hcount
          simp only [same, Bool.and_eq_true] at h
          have ha' : a.IsLegible := ha
          exact ih ha' h.2 hcount
      | _ => cases h

/-! ## Surviving trees -/

/-- Every number of a tree is finite, and its sign bit is clear. -/
def HasPlainNumbers (e : Expr) : Prop :=
  ∀ v, .number v ∈ e.nodes → v.isFinite = true ∧ Binary64.isSignMinus v = false

/-- Every name of a tree is an identifier that stands neither for a function nor for a constant. -/
def HasPlainNames (e : Expr) : Prop :=
  ∀ s, .symbol s ∈ e.nodes →
    isName s.toList = true ∧ Elementary.ofName? s = none ∧ s ≠ "pi" ∧ s ≠ "e"

/-- No negation is the base of a power in a tree. -/
def HasNoNegatedBase (e : Expr) : Prop := ∀ a b, .binary .pow (.neg a) b ∉ e.nodes

theorem isLegible_iff (e : Expr) :
    e.IsLegible ↔ (∀ v, .number v ∈ e.nodes → Token.IsLiteral v) ∧ e.HasPlainNames := by
  induction e with
  | number v => simp [IsLegible, HasPlainNames, nodes]
  | symbol s => simp [IsLegible, HasPlainNames, nodes]
  | neg a ih => simpa [IsLegible, HasPlainNames, nodes] using ih
  | binary op a b iha ihb =>
      simp only [IsLegible, iha, ihb, HasPlainNames, nodes, List.mem_cons, List.mem_append,
        reduceCtorEq, false_or, or_imp, forall_and]
      tauto
  | call f a ih => simpa [IsLegible, HasPlainNames, nodes] using ih

theorem survivesPrinting_iff (e : Expr) :
    e.survivesPrinting = true ↔
      (∀ v, .number v ∈ e.nodes → v.isFinite = true) ∧ e.HasNoNegatedBase := by
  fun_induction survivesPrinting e with
  | case1 v => simp [HasNoNegatedBase, nodes]
  | case2 s => simp [HasNoNegatedBase, nodes]
  | case3 a ih => simpa [HasNoNegatedBase, nodes] using ih
  | case4 a b => exact iff_of_false Bool.false_ne_true fun h ↦ h.2 a b List.mem_cons_self
  | case5 op a b hne iha ihb =>
      have hroot (c d : Expr) : Expr.binary .pow (.neg c) d ≠ .binary op a b := by
        rintro ⟨⟩
        exact hne c rfl rfl
      rw [Bool.and_eq_true, iha, ihb]
      simp only [HasNoNegatedBase, nodes, List.mem_cons, List.mem_append, reduceCtorEq, false_or,
        hroot, or_imp, forall_and, not_or]
      tauto
  | case6 f a ih => simpa [HasNoNegatedBase, nodes] using ih

theorem hasPlainNumbers_iff (e : Expr) :
    e.HasPlainNumbers ↔ (∀ v, .number v ∈ e.nodes → Token.IsLiteral v) ∧
      ∀ v, .number v ∈ e.nodes → v.isFinite = true := by
  have hinfinity : Binary64.infinity.isFinite = false := rfl
  constructor
  · intro h
    exact ⟨fun v hv ↦ .inl (h v hv), fun v hv ↦ (h v hv).1⟩
  · rintro ⟨hliteral, hfinite⟩ v hv
    rcases hliteral v hv with h | rfl
    · exact h
    · exact nomatch hinfinity.symm.trans (hfinite _ hv)

/-- The trees that are read back from their printed form are those with plain numbers, plain names
and no negated bases; the first two suffice for the printed form to be read at all. -/
theorem parse_text_same_iff (e : Expr) :
    ((∃ a, parse e.text = .ok a ∧ (a == e) = true) ↔
      e.HasPlainNumbers ∧ e.HasPlainNames ∧ e.HasNoNegatedBase) ∧
    (e.HasPlainNumbers ∧ e.HasPlainNames → ∃ a, parse e.text = .ok a) := by
  have hplain : e.HasPlainNumbers ∧ e.HasPlainNames ∧ e.HasNoNegatedBase ↔
      e.IsLegible ∧ e.survivesPrinting = true := by
    rw [hasPlainNumbers_iff, isLegible_iff, survivesPrinting_iff]
    tauto
  refine ⟨⟨?_, ?_⟩, ?_⟩
  · -- The tree that was read is legible, and it has as many minuses as `e` prints minus signs.
    rintro ⟨a, hparse, hsame⟩
    have hcount := countP_of_parse hparse
    rw [text_eq_ofList_print, String.toList_ofList] at hcount
    have hlegible := isLegible_of_same (isLegible_of_parse hparse) hsame
      (hcount.trans (minuses_eq_of_same hsame))
    have hreread := parse_text hlegible
    rw [hparse] at hreread
    cases hreread
    exact hplain.mpr ⟨hlegible, (same_reread e).symm.trans hsame⟩
  · intro h
    obtain ⟨hlegible, hsurvives⟩ := hplain.mp h
    exact ⟨e.reread, parse_text hlegible, (same_reread e).trans hsurvives⟩
  · rintro ⟨hnumbers, hnames⟩
    have hlegible := (isLegible_iff e).mpr ⟨((hasPlainNumbers_iff e).mp hnumbers).1, hnames⟩
    exact ⟨e.reread, parse_text hlegible⟩

/-- A square is read back under a negation and not over one, and the negative zero is not read back
at all. -/
theorem parse_text_same_signed_square_and_zero :
    (∃ a, parse (Expr.neg (.binary .pow (.symbol "a") (.number 2))).text = .ok a ∧
      (a == .neg (.binary .pow (.symbol "a") (.number 2))) = true) ∧
    (∃ a, parse (Expr.binary .pow (.neg (.symbol "a")) (.number 2)).text = .ok a) ∧
    (¬ ∃ a, parse (Expr.binary .pow (.neg (.symbol "a")) (.number 2)).text = .ok a ∧
      (a == .binary .pow (.neg (.symbol "a")) (.number 2)) = true) ∧
    ¬ ∃ a, parse (Expr.number (-0)).text = .ok a ∧ (a == .number (-0)) = true := by
  have htwo : (2 : Float).isFinite = true ∧ Binary64.isSignMinus 2 = false := by decide
  have hname : isName "a".toList = true ∧ Elementary.ofName? "a" = none ∧
      "a" ≠ "pi" ∧ "a" ≠ "e" := by
    decide
  refine ⟨(parse_text_same_iff _).1.mpr ⟨?_, ?_, ?_⟩, (parse_text_same_iff _).2 ⟨?_, ?_⟩,
    fun h ↦ ?_, fun h ↦ ?_⟩
  · simpa [HasPlainNumbers, nodes] using htwo
  · simpa [HasPlainNames, nodes] using hname
  · simp [HasNoNegatedBase, nodes]
  · simpa [HasPlainNumbers, nodes] using htwo
  · simpa [HasPlainNames, nodes] using hname
  · exact ((parse_text_same_iff _).1.mp h).2.2 _ _ List.mem_cons_self
  · have hsign := (((parse_text_same_iff _).1.mp h).1 (-0) List.mem_cons_self).2
    exact absurd hsign (by decide)

end CurveSearch.Expr
