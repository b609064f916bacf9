import CurveSearch.Expr.Printing
import CurveSearch.Proofs.Expr.Reading
import CurveSearch.Proofs.Expr.Scanning

/-!
# The tokens of a printed tree

The trees that texts spell are legible: each number is a literal and each symbol is an identifier
that has no other meaning. The printed form of a legible tree is scanned into one token for each
sign, name and number that is printed, except that an infinite number is read as a name.
-/

namespace CurveSearch.Expr

/-- What a text can spell. -/
def IsLegible : Expr → Prop
  | .number v => Token.IsLiteral v
  | .symbol s => isName s.toList = true ∧ Elementary.ofName? s = none ∧ s ≠ "pi" ∧ s ≠ "e"
  | .neg a => a.IsLegible
  | .binary _ a b => a.IsLegible ∧ b.IsLegible
  | .call _ a => a.IsLegible

/-! ## Trees of legible tokens -/

def Phrase.IsLegible : Phrase → Prop
  | .terms a | .factors a => a.IsLegible
  | _ => True

theorem isLiteral_pi : Token.IsLiteral 3.141592653589793 := .inl ⟨by decide, by decide⟩

theorem isLiteral_euler : Token.IsLiteral 2.718281828459045 := .inl ⟨by decide, by decide⟩

/-- A phrase of legible tokens spells a legible tree and leaves legible tokens. -/
theorem Reads.isLegible {p : Phrase} {ts rest : List Token} {a : Expr} (h : Reads p ts a rest)
    (hp : p.IsLegible) (hts : ∀ t ∈ ts, t.IsLegible) :
    a.IsLegible ∧ ∀ t ∈ rest, t.IsLegible := by
  induction h with
  | number v ts => exact List.forall_mem_cons.mp hts
  | pi ts => exact ⟨isLiteral_pi, (List.forall_mem_cons.mp hts).2⟩
  | euler ts => exact ⟨isLiteral_euler, (List.forall_mem_cons.mp hts).2⟩
  | symbol ts hfunction hpi he =>
      obtain ⟨hname, hrest⟩ := List.forall_mem_cons.mp hts
      exact ⟨⟨hname, hfunction, hpi, he⟩, hrest⟩
  | group hsum ih =>
      obtain ⟨ha, hrest⟩ := ih trivial (List.forall_mem_cons.mp hts).2
      exact ⟨ha, (List.forall_mem_cons.mp hrest).2⟩
  | call hs hright ih => exact ih trivial (List.forall_mem_cons.mp hts).2
  | callNeg hs hright ih =>
      exact ih trivial (List.forall_mem_cons.mp (List.forall_mem_cons.mp hts).2).2
  | primary hreads ih => exact ih trivial hts
  | pow hleft hright ihleft ihright =>
      obtain ⟨ha, hmid⟩ := ihleft trivial hts
      obtain ⟨hb, hrest⟩ := ihright trivial (List.forall_mem_cons.mp hmid).2
      exact ⟨⟨ha, hb⟩, hrest⟩
  | base hreads hstop ih => exact ih trivial hts
  | neg hright ih => exact ih trivial (List.forall_mem_cons.mp hts).2
  | unsigned hreads ih => exact ih trivial hts
  | product hleft hreads ihleft ih =>
      obtain ⟨ha, hmid⟩ := ihleft trivial hts
      exact ih ha hmid
  | factor hop hright hreads ihright ih =>
      obtain ⟨hb, hmid⟩ := ihright trivial (List.forall_mem_cons.mp hts).2
      exact ih ⟨hp, hb⟩ hmid
  | juxtaposed hstart hright hreads ihright ih =>
      obtain ⟨hb, hmid⟩ := ihright trivial hts
      exact ih ⟨hp, hb⟩ hmid
  | lastFactor hstop => exact ⟨hp, hts⟩
  | sum hleft hreads ihleft ih =>
      obtain ⟨ha, hmid⟩ := ihleft trivial hts
      exact ih ha hmid
  | term hop hright hreads ihright ih =>
      obtain ⟨hb, hmid⟩ := ihright trivial (List.forall_mem_cons.mp hts).2
      exact ih ⟨hp, hb⟩ hmid
  | lastTerm hstop => exact ⟨hp, hts⟩

theorem mem_of_mem_dropPluses {due : Bool} {t : Token} {ts : List Token}
    (h : t ∈ dropPluses due ts) : t ∈ ts := by
  induction ts generalizing due with
  | nil => exact nomatch h
  | cons u ts ih =>
      rw [dropPluses.eq_def] at h
      split at h
      · next heq => exact nomatch heq
      · next heq =>
          cases heq
          exact List.mem_cons_of_mem _ (ih h)
      · next heq =>
          cases heq
          rcases List.mem_cons.mp h with rfl | h
          · exact List.mem_cons_self
          · exact List.mem_cons_of_mem _ (ih h)

theorem exists_tokens_of_parse {text : String} {e : Expr} (h : parse text = .ok e) :
    ∃ ts, Token.scan 0 text.toList = .ok ts ∧ ofTokens ts = .ok e := by
  unfold parse Token.ofText at h
  cases hscan : Token.scan 0 text.toList with
  | error err =>
      rw [hscan] at h
      exact nomatch h
  | ok ts =>
      rw [hscan] at h
      cases ts with
      | nil => exact nomatch h
      | cons t ts => exact ⟨t :: ts, rfl, h⟩

theorem isLegible_of_parse {text : String} {e : Expr} (h : parse text = .ok e) : e.IsLegible := by
  obtain ⟨ts, hscan, htree⟩ := exists_tokens_of_parse h
  refine ((reads_of_ofTokens htree).isLegible trivial ?_).1
  intro t ht
  exact Token.isLegible_of_scan hscan t (mem_of_mem_dropPluses ht)

/-! ## Scanning what was printed -/

/-- The tokens of a printed tree. -/
def tokens : Expr → List Token
  | .number v => [if v.isFinite then .number v else .name "inf"]
  | .symbol s => [.name s]
  | .neg a => .operation .sub :: .leftParen :: (a.tokens ++ [.rightParen])
  | .binary op a b => .leftParen :: (a.tokens ++ .operation op :: (b.tokens ++ [.rightParen]))
  | .call f a => .name f.name :: .leftParen :: (a.tokens ++ [.rightParen])

theorem tokens_ne_nil (e : Expr) : e.tokens ≠ [] := by
  cases e <;> exact nofun

theorem ofSign?_sign (op : BinaryOp) : Token.ofSign? op.sign = some (.operation op) := by
  cases op <;> rfl

theorem isBlank_sign (op : BinaryOp) : Text.isBlank op.sign = false := by
  cases op <;> decide

theorem isName_name (f : Elementary) : isName f.name.toList = true := by
  cases f <;> decide

theorem endsWord_cons {c : Char} {cs : List Char} (hnumeral : Token.isNumeral c = false)
    (hname : Token.isNameChar c = false) : Token.EndsWord (c :: cs) := by
  simp [Token.EndsWord, hnumeral, hname]

open Token in
/-- The printed form of a legible tree is scanned into its tokens, up to where it ends. -/
theorem scans_print {e : Expr} (h : e.IsLegible) {rest : List Char} {ts : List Token}
    (hrest : EndsWord rest) (hts : Scans rest ts) : Scans (e.print ++ rest) (e.tokens ++ ts) := by
  -- What is printed inside another tree is followed by a closing parenthesis or a blank.
  have hclose {rest ts} (hts : Scans rest ts) :
      EndsWord (')' :: rest) ∧ Scans (')' :: rest) (.rightParen :: ts) :=
    ⟨endsWord_cons rfl rfl, hts.sign rfl rfl⟩
  induction e generalizing rest ts with
  | number v =>
      rcases h with ⟨hfinite, hsign⟩ | rfl
      · obtain ⟨⟨hchars, c, cs, hplain, hc⟩, hread⟩ := Decimal.read?_plain hfinite hsign
        rw [print, tokens, if_pos hfinite]
        rw [hplain] at hchars hread ⊢
        exact hts.numeral hrest (fun d hd ↦ isNumeral_iff.mpr (hchars d hd)) hread
      · rw [print, tokens, Decimal.plain_infinity]
        exact hts.name hrest rfl
  | symbol s =>
      have hscan := hts.name hrest h.1
      rwa [String.ofList_toList] at hscan
  | neg a ih =>
      obtain ⟨hend, hscan⟩ := hclose hts
      have hinner := ih h hend hscan
      simpa [print, tokens] using (hinner.sign (c := '(') rfl rfl).sign (c := '-') rfl rfl
  | binary op a b iha ihb =>
      obtain ⟨hend, hscan⟩ := hclose hts
      have hright := (ihb h.2 hend hscan).blank (c := ' ') rfl
      have hop := (hright.sign (ofSign?_sign op) (isBlank_sign op)).blank (c := ' ') rfl
      have hleft := iha h.1 (endsWord_cons rfl rfl) hop
      simpa [print, tokens] using hleft.sign (c := '(') rfl rfl
  | call f a ih =>
      obtain ⟨hend, hscan⟩ := hclose hts
      have hinner := (ih h hend hscan).sign (c := '(') rfl rfl
      have hname := hinner.name (endsWord_cons rfl rfl) (isName_name f)
      rw [String.ofList_toList] at hname
      simpa [print, tokens] using hname

end CurveSearch.Expr
