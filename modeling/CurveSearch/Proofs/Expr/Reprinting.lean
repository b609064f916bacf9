import CurveSearch.Proofs.Expr.Printed

/-!
# Reading a printed tree

The printed form of a tree that a text spells always reads back. What it reads as is the tree itself
but for two things: a power whose base is a negation is printed without parentheses around the base,
so it reads as the negation of a power, and an infinite number is printed as a name. The tree is
therefore the same exactly if neither occurs in it.
-/

namespace CurveSearch.Expr

/-- What the printed form of a tree reads as. -/
def reread : Expr → Expr
  | .number v => if v.isFinite then .number v else .symbol "inf"
  | .symbol s => .symbol s
  | .neg a => .neg a.reread
  | .binary .pow (.neg a) b => .neg (.binary .pow a.reread b.reread)
  | .binary op a b => .binary op a.reread b.reread
  | .call f a => .call f a.reread

/-- Every number is finite, and no negation is the base of a power. -/
def survivesPrinting : Expr → Bool
  | .number v => v.isFinite
  | .symbol _ => true
  | .neg a => a.survivesPrinting
  | .binary .pow (.neg _) _ => false
  | .binary _ a b => a.survivesPrinting && b.survivesPrinting
  | .call _ a => a.survivesPrinting

variable {a b : Expr} {ts us rest : List Token}

/-! ## Reading operands -/

def ReadsOperand (ts : List Token) (a : Expr) : Prop :=
  ∀ rest, Stops Token.isPower rest → Reads .unary (ts ++ rest) a rest

def ReadsBase (ts : List Token) (a : Expr) : Prop :=
  ∀ rest, Reads .application (ts ++ rest) a rest

def ReadsSum (ts : List Token) (a : Expr) : Prop :=
  ∀ rest, Reads .sum (ts ++ .rightParen :: rest) a (.rightParen :: rest)

theorem ReadsBase.operand (h : ReadsBase ts a) : ReadsOperand ts a := by
  intro rest hstop
  exact .unsigned (.base (h rest) hstop)

theorem ReadsSum.base (h : ReadsSum ts a) : ReadsBase (.leftParen :: (ts ++ [.rightParen])) a := by
  intro rest
  rw [List.cons_append, List.append_assoc]
  exact .primary (.group (h rest))

theorem ReadsOperand.product (h : ReadsOperand ts a) (hpow : Stops Token.isPower rest)
    (hfactor : Stops Token.isFactor rest) : Reads .product (ts ++ rest) a rest :=
  .product (h rest hpow) (.lastFactor hfactor)

theorem ReadsOperand.sum (h : ReadsOperand ts a) : ReadsSum ts a := by
  intro rest
  apply Reads.sum
  · exact h.product (stops_cons.mpr rfl) (stops_cons.mpr rfl)
  · exact .lastTerm (stops_cons.mpr rfl)

theorem ReadsOperand.neg (h : ReadsOperand ts a) :
    ReadsOperand (.operation .sub :: ts) (.neg a) := by
  intro rest hstop
  exact .neg (h rest hstop)

theorem ReadsBase.pow (ha : ReadsBase ts a) (hb : ReadsOperand us b) :
    ReadsOperand (ts ++ .operation .pow :: us) (.binary .pow a b) := by
  intro rest hstop
  rw [List.append_assoc]
  exact .unsigned (.pow (ha _) (hb rest hstop))

theorem ReadsOperand.factor {op : BinaryOp} (hop : op = .mul ∨ op = .div) (ha : ReadsOperand ts a)
    (hb : ReadsOperand us b) : ReadsSum (ts ++ .operation op :: us) (.binary op a b) := by
  intro rest
  rw [List.append_assoc]
  apply Reads.sum
  · apply Reads.product
    · apply ha
      rcases hop with rfl | rfl <;> exact stops_cons.mpr rfl
    · exact .factor hop (hb _ (stops_cons.mpr rfl)) (.lastFactor (stops_cons.mpr rfl))
  · exact .lastTerm (stops_cons.mpr rfl)

theorem ReadsOperand.term {op : BinaryOp} (hop : op = .add ∨ op = .sub) (ha : ReadsOperand ts a)
    (hb : ReadsOperand us b) : ReadsSum (ts ++ .operation op :: us) (.binary op a b) := by
  intro rest
  rw [List.append_assoc]
  apply Reads.sum
  · apply ha.product <;> rcases hop with rfl | rfl <;> exact stops_cons.mpr rfl
  · exact .term hop (hb.product (stops_cons.mpr rfl) (stops_cons.mpr rfl))
      (.lastTerm (stops_cons.mpr rfl))

theorem ReadsOperand.binary {op : BinaryOp} (hop : op ≠ .pow) (ha : ReadsOperand ts a)
    (hb : ReadsOperand us b) : ReadsSum (ts ++ .operation op :: us) (.binary op a b) := by
  cases op with
  | add => exact ha.term (.inl rfl) hb
  | sub => exact ha.term (.inr rfl) hb
  | mul => exact ha.factor (.inl rfl) hb
  | div => exact ha.factor (.inr rfl) hb
  | pow => exact absurd rfl hop

/-! ## Reading printed trees -/

theorem tokens_binary (op : BinaryOp) (a b : Expr) :
    (Expr.binary op a b).tokens =
      .leftParen :: ((a.tokens ++ .operation op :: b.tokens) ++ [.rightParen]) := by
  simp [tokens]

/-- How the tokens of a tree are read: as an operand, and as the base of a power unless the tree is a
negation. -/
structure Rereads (e : Expr) : Prop where
  operand : ReadsOperand e.tokens e.reread
  base : (∀ a, e ≠ .neg a) → ReadsBase e.tokens e.reread

theorem ReadsBase.rereads {e : Expr} (h : ReadsBase e.tokens e.reread) : Rereads e :=
  ⟨h.operand, fun _ ↦ h⟩

theorem rereads_of_isLegible {e : Expr} (h : e.IsLegible) : Rereads e := by
  induction e using reread.induct with
  | case1 v hfinite =>
      apply ReadsBase.rereads
      rw [tokens, reread, if_pos hfinite, if_pos hfinite]
      intro rest
      exact .primary (.number v rest)
  | case2 v hfinite =>
      apply ReadsBase.rereads
      rw [tokens, reread, if_neg hfinite, if_neg hfinite]
      intro rest
      exact .primary (.symbol rest rfl (by decide) (by decide))
  | case3 s =>
      obtain ⟨-, hfunction, hpi, he⟩ := h
      apply ReadsBase.rereads
      intro rest
      exact .primary (.symbol rest hfunction hpi he)
  | case4 a ih => exact ⟨(ih h).operand.sum.base.operand.neg, fun hne ↦ absurd rfl (hne a)⟩
  | case5 a b iha ihb =>
      -- The base is printed without parentheses, so its sign stands before the whole power.
      have hpow := (iha h.1).operand.sum.base.pow (ihb h.2).operand
      apply ReadsBase.rereads
      rw [tokens_binary]
      exact hpow.neg.sum.base
  | case6 op a b hne iha ihb =>
      have hreread : (Expr.binary op a b).reread = .binary op a.reread b.reread := by
        rw [reread]
        exact hne
      apply ReadsBase.rereads
      rw [tokens_binary, hreread]
      by_cases hop : op = .pow
      · subst hop
        have hbase := (iha h.1).base fun c hc ↦ hne c rfl hc
        exact (hbase.pow (ihb h.2).operand).sum.base
      · exact ((iha h.1).operand.binary hop (ihb h.2).operand).base
  | case7 f a ih =>
      apply ReadsBase.rereads
      intro rest
      exact .call (Elementary.ofName?_name f) ((ih h).operand.sum.base rest)

/-- Every plus that is printed stands after an operand. -/
theorem dropPluses_tokens {e : Expr} (h : e.IsLegible) (rest : List Token) :
    dropPluses true (e.tokens ++ rest) = e.tokens ++ dropPluses false rest := by
  induction e generalizing rest with
  | number v =>
      unfold tokens
      split_ifs <;> rfl
  | symbol s =>
      obtain ⟨-, hfunction, -, -⟩ := h
      simp [tokens, dropPluses, Token.leavesDue, hfunction]
  | neg a ih => simp [tokens, dropPluses, Token.leavesDue, ih h]
  | binary op a b iha ihb =>
      simp [tokens, dropPluses, Token.leavesDue, iha h.1, ihb h.2]
  | call f a ih =>
      simp [tokens, dropPluses, Token.leavesDue, ih h]

theorem parse_of_scans {text : String} {e : Expr} (hscan : Token.Scans text.toList ts)
    (hne : ts ≠ []) (htree : ofTokens ts = .ok e) : parse text = .ok e := by
  rw [parse, Token.ofText_of_scans hscan hne]
  exact htree

theorem parse_text {e : Expr} (h : e.IsLegible) : parse e.text = .ok e.reread := by
  have hscan : Token.Scans e.text.toList e.tokens := by
    have hscan : Token.Scans (e.print ++ []) (e.tokens ++ []) :=
      scans_print h nofun Token.scans_nil
    rw [List.append_nil, List.append_nil] at hscan
    rwa [text_eq_ofList_print, String.toList_ofList]
  have htree : ofTokens e.tokens = .ok e.reread := by
    have hdrop := dropPluses_tokens h []
    rw [List.append_nil] at hdrop
    have hproduct := (rereads_of_isLegible h).operand.product (stops_nil _) (stops_nil _)
    apply (ofTokens_of_reads _).2
    rw [hdrop]
    exact .sum hproduct (.lastTerm (stops_nil _))
  exact parse_of_scans hscan e.tokens_ne_nil htree

/-! ## Surviving -/

theorem beq_self_of_isFinite {v : Float} (h : v.isFinite = true) : (v == v) = true :=
  Grid.beq_iff.mpr ⟨Grid.isNaN_of_isFinite h, Grid.isNaN_of_isFinite h, rfl⟩

theorem same_reread (e : Expr) : e.reread.same e = e.survivesPrinting := by
  induction e using reread.induct with
  | case1 v hfinite =>
      rw [reread, if_pos hfinite]
      exact (beq_self_of_isFinite hfinite).trans hfinite.symm
  | case2 v hfinite =>
      rw [reread, if_neg hfinite]
      exact (Bool.eq_false_iff.mpr hfinite).symm
  | case3 s => simp [reread, same, survivesPrinting]
  | case4 a ih => exact ih
  | case5 a b iha ihb => rfl
  | case6 op a b hne iha ihb =>
      rw [reread, survivesPrinting, ← iha, ← ihb]
      · simp [same]
      · exact hne
      · exact hne
  | case7 f a ih => simpa [reread, same, survivesPrinting] using ih

/-- The printed form of a tree that a text spells reads back, and as the same tree exactly if every
number is finite and no negation is the base of a power. -/
theorem parse_text_of_parse {text : String} {e : Expr} (h : parse text = .ok e) :
    parse e.text = .ok e.reread ∧ ((e.reread == e) = true ↔ e.survivesPrinting = true) := by
  have hlegible := isLegible_of_parse h
  refine ⟨parse_text hlegible, ?_⟩
  change e.reread.same e = true ↔ _
  rw [same_reread]

open Token in
/-- A negated base is lost, while the negation of a power survives. -/
theorem parse_text_of_parse_signed_square :
    (parse "(-a)^2" = .ok (.binary .pow (.neg (.symbol "a")) (.number 2)) ∧
      parse (Expr.binary .pow (.neg (.symbol "a")) (.number 2)).text =
        .ok (.neg (.binary .pow (.symbol "a") (.number 2))) ∧
      (Expr.neg (.binary .pow (.symbol "a") (.number 2)) ==
        .binary .pow (.neg (.symbol "a")) (.number 2)) = false) ∧
    parse "-a^2" = .ok (.neg (.binary .pow (.symbol "a") (.number 2))) ∧
      parse (Expr.neg (.binary .pow (.symbol "a") (.number 2))).text =
        .ok (.neg (.binary .pow (.symbol "a") (.number 2))) ∧
      (Expr.neg (.binary .pow (.symbol "a") (.number 2)) ==
        .neg (.binary .pow (.symbol "a") (.number 2))) = true := by
  have hnumber : Scans (['2'] ++ []) [.number 2] := by
    apply scans_nil.numeral nofun
    · intro d hd
      obtain rfl := List.mem_singleton.mp hd
      rfl
    · rfl
  have hpower : Scans ['^', '2'] [.operation .pow, .number 2] := hnumber.sign rfl rfl
  have hgroup : Scans [')', '^', '2'] [.rightParen, .operation .pow, .number 2] :=
    hpower.sign rfl rfl
  have hbase : Scans (['a'] ++ [')', '^', '2']) [.name "a", .rightParen, .operation .pow, .number 2] :=
    hgroup.name (endsWord_cons rfl rfl) rfl
  have hsquare : Scans (['a'] ++ ['^', '2']) [.name "a", .operation .pow, .number 2] :=
    hpower.name (endsWord_cons rfl rfl) rfl
  have hlost : parse "(-a)^2" = .ok (.binary .pow (.neg (.symbol "a")) (.number 2)) :=
    parse_of_scans ((hbase.sign rfl rfl).sign rfl rfl) nofun rfl
  have hkept : parse "-a^2" = .ok (.neg (.binary .pow (.symbol "a") (.number 2))) :=
    parse_of_scans (hsquare.sign rfl rfl) nofun rfl
  obtain ⟨htext, hsame⟩ := parse_text_of_parse hlost
  obtain ⟨htext', hsame'⟩ := parse_text_of_parse hkept
  refine ⟨⟨hlost, htext, ?_⟩, hkept, htext', hsame'.mpr rfl⟩
  rw [Bool.eq_false_iff]
  exact mt hsame.mp (by decide)

end CurveSearch.Expr
