import CurveSearch.Proofs.Expr.Counter

/-!
# What tokens spell

Every list of tokens that the counter accepts has a reading in the grammar: the reading never runs
into a token that its phrase cannot take. The tree of a list of tokens is therefore its reading, and
the errors are those of the counter.
-/

namespace CurveSearch.Expr

/-- Whether the counter finds no fault in the rest of the tokens. -/
def Counter.Accepts (due : Bool) (depth : Nat) (ts : List Token) : Prop :=
  complete ⟨due, depth⟩ ts = .ok ()

variable {depth n : Nat} {t : Token} {ts : List Token} {a : Expr}

def Token.isParenthesis : Token → Bool
  | .leftParen | .rightParen => true
  | _ => false

namespace Counter.Accepts

theorem not_nil_of_due : ¬ Accepts true depth [] := by
  intro h
  exact nomatch h

theorem not_of_feed {due : Bool} {err : SyntaxError} (h : feed ⟨due, depth⟩ t = .error err) :
    ¬ Accepts due depth (t :: ts) := by
  intro haccepts
  rw [Accepts, complete_cons, h] at haccepts
  cases haccepts

theorem depth_eq_zero (h : Accepts false depth []) : depth = 0 := by
  rcases Nat.eq_zero_or_pos depth with hzero | hpos
  · exact hzero
  · simp [Accepts, complete, finish, hpos] at h

theorem exists_feed {due : Bool} (h : Accepts due depth (t :: ts)) :
    ∃ depth', feed ⟨due, depth⟩ t = .ok ⟨t.leavesDue, depth'⟩ ∧
      Accepts t.leavesDue depth' ts := by
  rw [Accepts, complete_cons] at h
  cases hfeed : feed ⟨due, depth⟩ t with
  | error err =>
      rw [hfeed] at h
      exact nomatch h
  | ok c =>
      rw [hfeed] at h
      obtain ⟨due', depth'⟩ := c
      obtain rfl : due' = t.leavesDue := operandDue_feed hfeed
      exact ⟨depth', rfl, h⟩

theorem tail {due : Bool} (h : Accepts due depth (t :: ts)) (hparen : t.isParenthesis = false) :
    Accepts t.leavesDue depth ts := by
  obtain ⟨depth', hfeed, hrest⟩ := h.exists_feed
  cases t with
  | leftParen => cases hparen
  | rightParen => cases hparen
  | number v =>
      cases hfeed
      exact hrest
  | name s =>
      cases hfeed
      exact hrest
  | operation op =>
      simp only [feed] at hfeed
      split at hfeed
      · split at hfeed
        · cases hfeed
          exact hrest
        · cases hfeed
      · cases hfeed
        exact hrest

end Counter.Accepts

/-- Where an operand may start, it may also start as a factor of an implicit product. -/
theorem Counter.Accepts.of_startsOperand (h : Accepts false depth (t :: ts))
    (hstart : t.startsOperand = true) : Accepts true depth (t :: ts) := by
  cases t with
  | operation op => simp [Token.startsOperand] at hstart
  | rightParen => simp [Token.startsOperand] at hstart
  | _ => exact h

open Counter

theorem exists_reads_name {s : String} (hs : Elementary.ofName? s = none) (ts : List Token) :
    ∃ a, Reads .primary (.name s :: ts) a ts := by
  by_cases hpi : s = "pi"
  · subst hpi
    exact ⟨_, .pi ts⟩
  · by_cases he : s = "e"
    · subst he
      exact ⟨_, .euler ts⟩
    · exact ⟨_, .symbol ts hs hpi he⟩

theorem dropPluses_false (t : Token) (ts : List Token) :
    dropPluses false (t :: ts) = t :: dropPluses t.leavesDue ts := by
  rw [dropPluses]
  intro hdue
  cases hdue

theorem stops_dropPluses {kind : Token → Bool} (ts : List Token) :
    Stops kind (dropPluses false ts) ↔ Stops kind ts := by
  cases ts with
  | nil => exact Iff.rfl
  | cons t ts => rw [dropPluses_false, stops_cons, stops_cons]

/-- Where an operand is due, what stands there after all pluses starts one or is a minus. -/
theorem Counter.Accepts.exists_start (h : Accepts true depth ts) :
    ∃ t ts', dropPluses true ts = t :: dropPluses t.leavesDue ts' ∧ Accepts true depth (t :: ts') ∧
      ts'.length < ts.length ∧ (t.startsOperand = true ∨ t = .operation .sub) := by
  induction ts with
  | nil => exact absurd h not_nil_of_due
  | cons t ts ih =>
      cases t with
      | operation op =>
          cases op with
          | add =>
              obtain ⟨t, ts', hdrop, haccepts, hlt, hstart⟩ := ih h
              exact ⟨t, ts', hdrop, haccepts, Nat.lt_succ_of_lt hlt, hstart⟩
          | sub => exact ⟨_, ts, rfl, h, Nat.lt_succ_self _, .inr rfl⟩
          | _ => exact absurd h (not_of_feed rfl)
      | rightParen => exact absurd h (not_of_feed rfl)
      | _ => exact ⟨_, ts, rfl, h, Nat.lt_succ_self _, .inl rfl⟩

/-! ## Reading what the counter accepts -/

def Phrase.signed : Phrase → Bool
  | .sum | .product | .unary => true
  | _ => false

/-- Whether a phrase can be read off all accepted lists up to a length, leaving an accepted list. -/
def Phrase.Readable (p : Phrase) (n : Nat) : Prop :=
  ∀ depth t ts, ts.length < n → Accepts true depth (t :: ts) →
    t.startsOperand = true ∨ t = .operation .sub ∧ p.signed = true →
    ∃ a rest, Reads p (t :: dropPluses t.leavesDue ts) a (dropPluses false rest) ∧
      rest.length ≤ ts.length ∧ Accepts false depth rest

theorem Phrase.Readable.exists_reads {p : Phrase} (h : p.Readable n) (hsigned : p.signed = true)
    (hle : ts.length ≤ n) (hts : Accepts true depth ts) :
    ∃ a rest, Reads p (dropPluses true ts) a (dropPluses false rest) ∧
      rest.length < ts.length ∧ Accepts false depth rest := by
  obtain ⟨t, ts', hdrop, haccepts, hlt, hstart⟩ := hts.exists_start
  rw [hdrop]
  have hstart' : t.startsOperand = true ∨ t = .operation .sub ∧ p.signed = true := by
    rcases hstart with hoperand | hsub
    · exact .inl hoperand
    · exact .inr ⟨hsub, hsigned⟩
  obtain ⟨a, rest, hreads, hrest, hacc⟩ := h depth t ts' (by omega) haccepts hstart'
  exact ⟨a, rest, hreads, by omega, hacc⟩

theorem readable_application (happlication : Phrase.application.Readable n)
    (hunary : Phrase.unary.Readable n) (hsum : Phrase.sum.Readable n) :
    Phrase.application.Readable (n + 1) := by
  intro depth t ts hlt h hstart
  cases t with
  | number v => exact ⟨_, ts, .primary (.number v _), Nat.le_refl _, h.tail rfl⟩
  | name s =>
      have hrest := h.tail rfl
      cases hs : Elementary.ofName? s with
      | none =>
          have hdue : (Token.name s).leavesDue = false := by simp [Token.leavesDue, hs]
          rw [hdue] at hrest ⊢
          obtain ⟨a, hreads⟩ := exists_reads_name hs (dropPluses false ts)
          exact ⟨a, ts, .primary hreads, Nat.le_refl _, hrest⟩
      | some f =>
          have hdue : (Token.name s).leavesDue = true := by simp [Token.leavesDue, hs]
          rw [hdue] at hrest ⊢
          obtain ⟨t', ts', hdrop, haccepts, hlt', hstart'⟩ := hrest.exists_start
          rw [hdrop]
          rcases hstart' with hoperand | rfl
          · obtain ⟨a, rest, hreads, hle, hacc⟩ :=
              happlication depth t' ts' (by omega) haccepts (.inl hoperand)
            exact ⟨_, rest, .call hs hreads, by omega, hacc⟩
          · obtain ⟨a, rest, hreads, hle, hacc⟩ :=
              hunary.exists_reads rfl (by omega) (haccepts.tail rfl)
            exact ⟨_, rest, .callNeg hs hreads, by omega, hacc⟩
  | leftParen =>
      obtain ⟨depth', hfeed, hinside⟩ := h.exists_feed
      cases hfeed
      obtain ⟨a, rest, hreads, hlt', hacc⟩ := hsum.exists_reads rfl (by omega) hinside
      cases rest with
      | nil => exact absurd hacc.depth_eq_zero (Nat.succ_ne_zero _)
      | cons t rest =>
          rw [dropPluses_false] at hreads
          rcases hreads.sum_rest with hnil | ⟨rest', hcons⟩
          · cases hnil
          · obtain rfl := (List.cons.inj hcons).1
            obtain ⟨depth', hfeed, houter⟩ := hacc.exists_feed
            cases hfeed
            exact ⟨a, rest, .primary (.group hreads), by simp at hlt'; omega, houter⟩
  | rightParen => simp [Token.startsOperand] at hstart
  | operation op => simp [Token.startsOperand, Phrase.signed] at hstart

theorem readable_power (happlication : Phrase.application.Readable (n + 1))
    (hunary : Phrase.unary.Readable n) : Phrase.power.Readable (n + 1) := by
  intro depth t ts hlt h hstart
  obtain ⟨a, rest, hreads, hle, hacc⟩ := happlication depth t ts hlt h hstart
  by_cases hpow : ∃ rest', rest = .operation .pow :: rest'
  · obtain ⟨rest', rfl⟩ := hpow
    simp only [List.length_cons] at hle
    obtain ⟨b, rest, hreads', hlt', hacc'⟩ :=
      hunary.exists_reads rfl (by omega) (hacc.tail rfl)
    exact ⟨_, rest, .pow hreads hreads', by omega, hacc'⟩
  · refine ⟨a, rest, .base hreads ?_, hle, hacc⟩
    rw [stops_dropPluses]
    cases rest with
    | nil => exact stops_nil _
    | cons t rest =>
        rw [stops_cons]
        cases t with
        | operation op => cases op <;> first | rfl | exact absurd ⟨_, rfl⟩ hpow
        | _ => rfl

theorem readable_unary (hpower : Phrase.power.Readable (n + 1))
    (hunary : Phrase.unary.Readable n) : Phrase.unary.Readable (n + 1) := by
  intro depth t ts hlt h hstart
  rcases hstart with hoperand | ⟨rfl, -⟩
  · obtain ⟨a, rest, hreads, hle, hacc⟩ := hpower depth t ts hlt h (.inl hoperand)
    exact ⟨a, rest, .unsigned hreads, hle, hacc⟩
  · obtain ⟨a, rest, hreads, hlt', hacc⟩ :=
      hunary.exists_reads rfl (by omega) (h.tail rfl)
    exact ⟨_, rest, .neg hreads, by omega, hacc⟩

theorem exists_reads_factors (hunary : Phrase.unary.Readable n)
    (hpower : Phrase.power.Readable n) (hle : ts.length ≤ n) (h : Accepts false depth ts) :
    ∃ b rest, Reads (.factors a) (dropPluses false ts) b (dropPluses false rest) ∧
      rest.length ≤ ts.length ∧ Accepts false depth rest := by
  induction hm : ts.length using Nat.strongRecOn generalizing ts a with
  | _ m ih =>
      subst hm
      cases ts with
      | nil => exact ⟨a, [], .lastFactor (stops_nil _), Nat.le_refl _, h⟩
      | cons t ts =>
          simp only [List.length_cons] at hle ih
          rw [dropPluses_false]
          by_cases hop : ∃ op, t = .operation op ∧ (op = .mul ∨ op = .div)
          · obtain ⟨op, rfl, hop⟩ := hop
            obtain ⟨b, mid, hreads, hlt, hacc⟩ :=
              hunary.exists_reads rfl (by omega) (h.tail rfl)
            obtain ⟨c, rest, hreads', hle', hacc'⟩ := ih mid.length (by omega) (by omega) hacc rfl
            exact ⟨c, rest, .factor hop hreads hreads', by simp; omega, hacc'⟩
          · by_cases hoperand : t.startsOperand = true
            · have hdue : Accepts true depth (t :: ts) := h.of_startsOperand hoperand
              obtain ⟨b, mid, hreads, hlt, hacc⟩ :=
                hpower depth t ts (by omega) hdue (.inl hoperand)
              obtain ⟨c, rest, hreads', hle', hacc'⟩ :=
                ih mid.length (by omega) (by omega) hacc rfl
              exact ⟨c, rest, .juxtaposed hoperand hreads hreads', by simp; omega, hacc'⟩
            · refine ⟨a, t :: ts, ?_, Nat.le_refl _, h⟩
              rw [dropPluses_false]
              apply Reads.lastFactor
              rw [stops_cons]
              cases t with
              | operation op => cases op <;> simp_all [Token.isFactor, Token.startsOperand]
              | _ => simp_all [Token.isFactor, Token.startsOperand]

theorem readable_product (hunary : Phrase.unary.Readable (n + 1))
    (hpower : Phrase.power.Readable (n + 1)) : Phrase.product.Readable (n + 1) := by
  intro depth t ts hlt h hstart
  obtain ⟨a, mid, hreads, hle, hacc⟩ := hunary depth t ts hlt h hstart
  obtain ⟨b, rest, hreads', hle', hacc'⟩ := exists_reads_factors hunary hpower (by omega) hacc
  exact ⟨b, rest, .product hreads hreads', by omega, hacc'⟩

theorem exists_reads_terms (hproduct : Phrase.product.Readable n) (hle : ts.length ≤ n)
    (h : Accepts false depth ts) :
    ∃ b rest, Reads (.terms a) (dropPluses false ts) b (dropPluses false rest) ∧
      rest.length ≤ ts.length ∧ Accepts false depth rest := by
  induction hm : ts.length using Nat.strongRecOn generalizing ts a with
  | _ m ih =>
      subst hm
      cases ts with
      | nil => exact ⟨a, [], .lastTerm (stops_nil _), Nat.le_refl _, h⟩
      | cons t ts =>
          simp only [List.length_cons] at hle ih
          rw [dropPluses_false]
          by_cases hop : ∃ op, t = .operation op ∧ (op = .add ∨ op = .sub)
          · obtain ⟨op, rfl, hop⟩ := hop
            obtain ⟨b, mid, hreads, hlt, hacc⟩ :=
              hproduct.exists_reads rfl (by omega) (h.tail rfl)
            obtain ⟨c, rest, hreads', hle', hacc'⟩ := ih mid.length (by omega) (by omega) hacc rfl
            exact ⟨c, rest, .term hop hreads hreads', by simp; omega, hacc'⟩
          · refine ⟨a, t :: ts, ?_, Nat.le_refl _, h⟩
            rw [dropPluses_false]
            apply Reads.lastTerm
            rw [stops_cons]
            cases t with
            | operation op => cases op <;> simp_all [Token.isTerm]
            | _ => rfl

theorem readable_sum (hproduct : Phrase.product.Readable (n + 1)) :
    Phrase.sum.Readable (n + 1) := by
  intro depth t ts hlt h hstart
  obtain ⟨a, mid, hreads, hle, hacc⟩ := hproduct depth t ts hlt h hstart
  obtain ⟨b, rest, hreads', hle', hacc'⟩ := exists_reads_terms hproduct (by omega) hacc
  exact ⟨b, rest, .sum hreads hreads', by omega, hacc'⟩

theorem readable (n : Nat) :
    Phrase.application.Readable n ∧ Phrase.unary.Readable n ∧ Phrase.sum.Readable n := by
  induction n with
  | zero => exact ⟨nofun, nofun, nofun⟩
  | succ n ih =>
      obtain ⟨happlication, hunary, hsum⟩ := ih
      have happlication' := readable_application happlication hunary hsum
      have hpower' := readable_power happlication' hunary
      have hunary' := readable_unary hpower' hunary
      exact ⟨happlication', hunary', readable_sum (readable_product hunary' hpower')⟩

/-- What the counter accepts has a reading, and nothing is left of it. -/
theorem exists_reads_of_check {tokens : List Token} (h : Counter.check tokens = .ok ()) :
    ∃ a, Reads .sum (dropPluses true tokens) a [] := by
  obtain ⟨-, -, hsum⟩ := readable tokens.length
  obtain ⟨a, rest, hreads, -, hacc⟩ := hsum.exists_reads rfl (Nat.le_refl _) h
  cases rest with
  | nil => exact ⟨a, hreads⟩
  | cons t rest =>
      rw [dropPluses_false] at hreads
      rcases hreads.sum_rest with hnil | ⟨rest', hcons⟩
      · exact nomatch hnil
      · -- No parenthesis is open that the rest could close.
        obtain rfl := (List.cons.inj hcons).1
        exact nomatch hacc

/-! ## The tree of a list of tokens -/

theorem run_eq_run_dropPluses (tokens : List Token) :
    Yard.run tokens = Yard.run (dropPluses true tokens) :=
  (Yard.complete_dropPluses {} tokens).symm

theorem map_run (tokens : List Token) :
    (Yard.run tokens).map (fun _ ↦ ()) = Counter.check tokens :=
  Yard.counter_complete {} tokens

theorem ofTokens_of_reads {tokens : List Token} (h : Reads .sum (dropPluses true tokens) a []) :
    Yard.run tokens = .ok a.postorder ∧ ofTokens tokens = .ok a := by
  have hrun : Yard.run tokens = .ok a.postorder :=
    (run_eq_run_dropPluses tokens).trans h.run_eq
  refine ⟨hrun, ?_⟩
  simp only [ofTokens, hrun, bind, Except.bind, ofPostorder, ofPostorder?_postorder]

theorem ofTokens_of_check_error {tokens : List Token} {err : SyntaxError}
    (h : Counter.check tokens = .error err) :
    Yard.run tokens = .error err ∧ ofTokens tokens = .error err := by
  rw [← map_run] at h
  cases hrun : Yard.run tokens with
  | ok nodes =>
      rw [hrun] at h
      exact nomatch h
  | error err' =>
      rw [hrun] at h
      cases h
      refine ⟨rfl, ?_⟩
      rw [ofTokens, hrun]
      rfl

theorem reads_of_ofTokens {tokens : List Token} {a : Expr} (h : ofTokens tokens = .ok a) :
    Reads .sum (dropPluses true tokens) a [] := by
  cases hcheck : Counter.check tokens with
  | error err => exact nomatch h.symm.trans (ofTokens_of_check_error hcheck).2
  | ok u =>
      obtain ⟨b, hreads⟩ := exists_reads_of_check hcheck
      obtain rfl : a = b := Except.ok.inj (h.symm.trans (ofTokens_of_reads hreads).2)
      exact hreads

/-- What tokens spell is their greedy reading in the grammar, and every list of tokens that the yard
takes to its end has one. -/
theorem ofTokens_eq_ok_iff_reads (tokens : List Token) :
    ((Yard.run tokens).isOk = true ↔ ∃ a, ofTokens tokens = .ok a) ∧
      ∀ a, ofTokens tokens = .ok a ↔ Reads .sum (dropPluses true tokens) a [] := by
  cases hcheck : Counter.check tokens with
  | ok u =>
      obtain ⟨a, hreads⟩ := exists_reads_of_check hcheck
      obtain ⟨hrun, htree⟩ := ofTokens_of_reads hreads
      constructor
      · apply iff_of_true
        · rw [hrun]
          rfl
        · exact ⟨a, htree⟩
      · intro b
        constructor
        · exact reads_of_ofTokens
        · intro hb
          exact (ofTokens_of_reads hb).2
  | error err =>
      obtain ⟨hrun, htree⟩ := ofTokens_of_check_error hcheck
      constructor
      · apply iff_of_false
        · rw [hrun]
          exact Bool.false_ne_true
        · rintro ⟨a, ha⟩
          exact nomatch htree.symm.trans ha
      · intro b
        apply iff_of_false
        · rw [htree]
          exact nofun
        · intro hb
          exact nomatch htree.symm.trans (ofTokens_of_reads hb).2

/-- The counter decides which tokens form an expression and names the first error of those that do
not. Where it finds none, no operand runs short and exactly one tree remains; so no list of tokens
is malformed. -/
theorem ofTokens_eq_check (tokens : List Token) :
    (ofTokens tokens).map (fun _ ↦ ()) = Counter.check tokens ∧
      (Counter.check tokens = .ok () ↔ ∃ nodes a, Yard.run tokens = .ok nodes ∧
        nodes.foldlM (fun stack node ↦ Node.build? node stack) [] = some [a] ∧
        ofTokens tokens = .ok a) ∧
      ofTokens tokens ≠ .error .malformed := by
  cases hcheck : Counter.check tokens with
  | ok u =>
      obtain ⟨a, hreads⟩ := exists_reads_of_check hcheck
      obtain ⟨hrun, htree⟩ := ofTokens_of_reads hreads
      have hbuild := foldlM_build?_postorder a [] []
      rw [List.append_nil] at hbuild
      refine ⟨?_, ?_, ?_⟩
      · rw [htree]
        rfl
      · exact iff_of_true rfl ⟨_, a, hrun, hbuild, htree⟩
      · rw [htree]
        exact nofun
  | error err =>
      obtain ⟨hrun, htree⟩ := ofTokens_of_check_error hcheck
      refine ⟨?_, ?_, ?_⟩
      · rw [htree]
        rfl
      · apply iff_of_false
        · exact nofun
        · rintro ⟨nodes, a, hnodes, -⟩
          exact nomatch hrun.symm.trans hnodes
      · rw [htree]
        rintro ⟨⟩
        exact Counter.complete_ne_malformed {} tokens hcheck

end CurveSearch.Expr
