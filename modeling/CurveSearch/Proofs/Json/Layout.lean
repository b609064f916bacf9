import CurveSearch.Proofs.Json.Numerals
import CurveSearch.Proofs.Json.Strings

/-!
# Documents and their texts

A document may be laid out in many ways, with separators between its parts. Whatever the layout is,
the text is read back to the document, if its numerals and strings have the standard form. The
compact text and the text over several lines are two such layouts.
-/

namespace CurveSearch.Json

/-! ## Layouts -/

def IsGap (gap : List Char) : Prop := ∀ c ∈ gap, isSeparator c = true

/-- Texts with commas between them. -/
def joined : List (List Char) → List Char
  | [] => []
  | text :: rest => text ++ (if rest.isEmpty then [] else [',']) ++ joined rest

/-- A member of an object with its layout. -/
structure Entry where
  before : List Char
  name : List Char
  after : List Char
  value : Json
  text : List Char

namespace Entry

def spelled (e : Entry) : List Char := e.before ++ (quote e.name ++ (e.after ++ ':' :: e.text))

def member (e : Entry) : List Char × Json := (e.name, e.value)

/-- Whether the parts of a member but its value have their form. -/
structure IsLaidOut (e : Entry) : Prop where
  before : IsGap e.before
  name : IsBody e.name
  after : IsGap e.after

end Entry

/-- The texts that spell a document. Each part may stand between separators. -/
inductive Spells : Json → List Char → Prop
  | null : Spells .null "null".toList
  | bool (b : Bool) : Spells (.bool b) (boolText b)
  | number {n : Numeral} {text : List Char} :
      n.IsStandard → n.IsSpelledBy text → Spells (.number n) text
  | string {body : List Char} : IsBody body → Spells (.string body) (quote body)
  | array {parts : List (Json × List Char)} {gap : List Char} :
      (∀ p ∈ parts, Spells p.1 p.2) → IsGap gap →
      Spells (.array (parts.map Prod.fst)) ('[' :: (joined (parts.map Prod.snd) ++ (gap ++ [']'])))
  | object {entries : List Entry} {gap : List Char} :
      (∀ e ∈ entries, e.IsLaidOut) → (∀ e ∈ entries, Spells e.value e.text) → IsGap gap →
      Spells (.object (entries.map Entry.member))
        ('{' :: (joined (entries.map Entry.spelled) ++ (gap ++ ['}'])))
  | padded {document : Json} {before text after : List Char} :
      IsGap before → Spells document text → IsGap after →
      Spells document (before ++ (text ++ after))

variable {gap cs rest text : List Char} {depth : ℕ}

/-! ## Separators -/

theorem skip_append (h : IsGap gap) (cs : List Char) : skip (gap ++ cs) = skip cs :=
  List.dropWhile_append_of_pos h

theorem skip_of_not_isSeparator {c : Char} (hc : isSeparator c = false) (cs : List Char) :
    skip (c :: cs) = c :: cs := by
  simp [skip, hc]

theorem skip_skip (cs : List Char) : skip (skip cs) = skip cs :=
  List.dropWhile_idempotent _ cs

theorem isDigit_of_isSeparator {c : Char} (hc : isSeparator c = true) :
    c.isDigit = false ∧ c ≠ '.' ∧ c ≠ 'e' ∧ c ≠ 'E' := by
  unfold isSeparator at hc
  simp only [Bool.or_eq_true, decide_eq_true_eq] at hc
  rcases hc with ((rfl | rfl) | rfl) | rfl <;> decide

theorem endsNumeral_append (h : IsGap gap) (hrest : EndsNumeral rest) :
    EndsNumeral (gap ++ rest) := by
  cases gap with
  | nil => exact hrest
  | cons c cs =>
      rintro x ⟨⟩
      exact isDigit_of_isSeparator (h c List.mem_cons_self)

theorem endsNumeral_cons {c : Char}
    (hc : c.isDigit = false ∧ c ≠ '.' ∧ c ≠ 'e' ∧ c ≠ 'E') (cs : List Char) :
    EndsNumeral (c :: cs) := by
  rintro x ⟨⟩
  exact hc

/-! ## Reading -/

theorem document?_skip (depth : ℕ) (cs : List Char) :
    document? depth (skip cs) = document? depth cs := by
  cases depth with
  | zero => rw [document?, document?]
  | succ depth => rw [document?, document?, skip_skip]

theorem items?_skip (depth : ℕ) (cs : List Char) : items? depth (skip cs) = items? depth cs := by
  cases depth with
  | zero => rw [items?, items?]
  | succ depth => rw [items?, items?, document?_skip]

theorem membersOf?_skip (depth : ℕ) (cs : List Char) :
    membersOf? depth (skip cs) = membersOf? depth cs := by
  cases depth with
  | zero => rw [membersOf?, membersOf?]
  | succ depth => rw [membersOf?, membersOf?, skip_skip]

/-- Neither a list of items nor one of members starts with its closing mark. -/
theorem items?_of_close (depth : ℕ) (cs : List Char) : items? depth (']' :: cs) = none := by
  cases depth with
  | zero => rfl
  | succ depth =>
      rw [items?]
      cases depth with
      | zero => rfl
      | succ depth => rfl

theorem membersOf?_of_close (depth : ℕ) (cs : List Char) :
    membersOf? depth ('}' :: cs) = none := by
  cases depth <;> rfl

/-- Whether a document is read from the beginning of a text, if enough steps are allowed for. What
is left may have lost separators. -/
def Reads (document : Json) (text : List Char) : Prop :=
  ∀ (depth : ℕ) {rest : List Char}, 2 * text.length ≤ depth → EndsNumeral rest →
    ∃ left, document? depth (text ++ rest) = some (document, left) ∧ skip left = skip rest

theorem Reads.padded {document : Json} {before after : List Char} (hbefore : IsGap before)
    (hafter : IsGap after) (h : Reads document text) :
    Reads document (before ++ (text ++ after)) := by
  intro depth rest hdepth hrest
  simp only [List.length_append] at hdepth
  obtain ⟨left, hread, hleft⟩ := h depth (by omega) (endsNumeral_append hafter hrest)
  refine ⟨left, ?_, hleft.trans (skip_append hafter rest)⟩
  rw [List.append_assoc, List.append_assoc, ← document?_skip, skip_append hbefore, document?_skip]
  exact hread

theorem joined_cons_cons (first second : List Char) (texts : List (List Char)) :
    joined (first :: second :: texts) = first ++ ',' :: joined (second :: texts) := by
  rw [joined]
  simp

theorem joined_singleton (text : List Char) : joined [text] = text := by
  simp [joined]

theorem items?_joined (hgap : IsGap gap) :
    ∀ {parts : List (Json × List Char)}, parts ≠ [] → (∀ p ∈ parts, Reads p.1 p.2) →
      ∀ (depth : ℕ) (rest : List Char),
        2 * ((joined (parts.map Prod.snd)).length + gap.length + 1) ≤ depth →
        items? depth (joined (parts.map Prod.snd) ++ (gap ++ ']' :: rest)) =
          some (parts.map Prod.fst, rest) := by
  intro parts
  induction parts with
  | nil => exact fun hne ↦ absurd rfl hne
  | cons p parts ih =>
      intro _ hreads depth rest hdepth
      obtain ⟨depth, rfl⟩ : ∃ d, depth = d + 1 := ⟨depth - 1, by omega⟩
      have hfirst := hreads p List.mem_cons_self
      rw [items?]
      cases parts with
      | nil =>
          simp only [List.map_cons, List.map_nil, joined_singleton] at hdepth ⊢
          obtain ⟨left, hread, hleft⟩ := hfirst depth (by omega)
            (endsNumeral_append hgap (endsNumeral_cons (c := ']') (by decide) rest))
          rw [skip_append hgap, skip_of_not_isSeparator rfl] at hleft
          simp [hread, hleft]
      | cons p' parts =>
          simp only [List.map_cons, joined_cons_cons, List.length_append, List.length_cons]
            at hdepth ih ⊢
          have hrest := ih (by simp) (fun q hq ↦ hreads q (List.mem_cons_of_mem p hq))
            depth rest (by omega)
          rw [List.append_assoc, List.cons_append]
          obtain ⟨left, hread, hleft⟩ := hfirst depth (by omega)
            (endsNumeral_cons (c := ',') (by decide)
              (joined (p'.2 :: parts.map Prod.snd) ++ (gap ++ ']' :: rest)))
          rw [skip_of_not_isSeparator rfl] at hleft
          simp [hread, hleft, hrest]

theorem Entry.IsLaidOut.membersOf?_append {e : Entry} (h : e.IsLaidOut) {left : List Char}
    (hread : document? depth (e.text ++ cs) = some (e.value, left)) :
    (∀ rest, skip left = ',' :: rest → membersOf? (depth + 1) (e.spelled ++ cs) =
      (membersOf? depth rest).map fun (members, rest) ↦ (e.member :: members, rest)) ∧
    ∀ rest, skip left = '}' :: rest →
      membersOf? (depth + 1) (e.spelled ++ cs) = some ([e.member], rest) := by
  have hspelled : e.spelled ++ cs =
      e.before ++ ('"' :: (e.name ++ '"' :: (e.after ++ ':' :: (e.text ++ cs)))) := by
    simp [Entry.spelled, quote]
  have hcolon : skip (e.after ++ ':' :: (e.text ++ cs)) = ':' :: (e.text ++ cs) := by
    rw [skip_append h.after, skip_of_not_isSeparator rfl]
  rw [hspelled, membersOf?, skip_append h.before, skip_of_not_isSeparator rfl]
  simp only [h.name.stringBody?_append, Option.bind_eq_bind, Option.bind_some, hcolon, hread]
  constructor
  · intro rest hrest
    simp only [hrest, Entry.member]
  · intro rest hrest
    simp only [hrest, Entry.member]

theorem membersOf?_joined (hgap : IsGap gap) :
    ∀ {entries : List Entry}, entries ≠ [] → (∀ e ∈ entries, e.IsLaidOut) →
      (∀ e ∈ entries, Reads e.value e.text) → ∀ (depth : ℕ) (rest : List Char),
        2 * ((joined (entries.map Entry.spelled)).length + gap.length + 1) ≤ depth →
        membersOf? depth (joined (entries.map Entry.spelled) ++ (gap ++ '}' :: rest)) =
          some (entries.map Entry.member, rest) := by
  intro entries
  induction entries with
  | nil => exact fun hne ↦ absurd rfl hne
  | cons e entries ih =>
      intro _ hlaid hreads depth rest hdepth
      obtain ⟨depth, rfl⟩ : ∃ d, depth = d + 1 := ⟨depth - 1, by omega⟩
      have hfirst := hreads e List.mem_cons_self
      have hentry := hlaid e List.mem_cons_self
      have hlength : e.text.length ≤ e.spelled.length := by
        simp only [Entry.spelled, List.length_append, List.length_cons]
        omega
      cases entries with
      | nil =>
          simp only [List.map_cons, List.map_nil, joined_singleton] at hdepth ⊢
          obtain ⟨left, hread, hleft⟩ := hfirst depth (by omega)
            (endsNumeral_append hgap (endsNumeral_cons (c := '}') (by decide) rest))
          rw [skip_append hgap, skip_of_not_isSeparator rfl] at hleft
          exact (hentry.membersOf?_append hread).2 rest hleft
      | cons e' entries =>
          simp only [List.map_cons, joined_cons_cons, List.length_append, List.length_cons]
            at hdepth ih ⊢
          have hrest := ih (by simp) (fun q hq ↦ hlaid q (List.mem_cons_of_mem e hq))
            (fun q hq ↦ hreads q (List.mem_cons_of_mem e hq)) depth rest (by omega)
          obtain ⟨left, hread, hleft⟩ := hfirst depth (by omega)
            (endsNumeral_cons (c := ',') (by decide)
              (joined (e'.spelled :: entries.map Entry.spelled) ++ (gap ++ '}' :: rest)))
          rw [skip_of_not_isSeparator rfl] at hleft
          rw [List.append_assoc, List.cons_append, (hentry.membersOf?_append hread).1 _ hleft, hrest]
          rfl

/-! ## Single words -/

theorem scalar?_null (rest : List Char) : scalar? ("null".toList ++ rest) = some (.null, rest) := rfl

theorem scalar?_boolText (b : Bool) (rest : List Char) :
    scalar? (boolText b ++ rest) = some (.bool b, rest) := by
  cases b <;> rfl

/-- A numeral starts with a sign or a digit, which no other document does. -/
theorem Numeral.IsStandard.exists_head {n : Numeral} (h : n.IsStandard)
    (hspelled : n.IsSpelledBy text) : ∃ c cs, text = c :: cs ∧ (c = '-' ∨ c.isDigit = true) := by
  obtain ⟨exponent, -, rfl⟩ := hspelled
  obtain ⟨c, cs, hcons, hdigit⟩ := h.whole.exists_cons
  rw [hcons]
  cases n.negative with
  | true => exact ⟨'-', _, rfl, .inl rfl⟩
  | false => exact ⟨c, _, rfl, .inr hdigit⟩

theorem ne_of_sign_or_digit {c : Char} (h : c = '-' ∨ c.isDigit = true) {d : Char}
    (hd : d ≠ '-' ∧ d.isDigit = false) : c ≠ d := by
  rintro rfl
  rcases h with rfl | h
  · exact hd.1 rfl
  · rw [hd.2] at h
    exact Bool.false_ne_true h

theorem isSeparator_of_sign_or_digit {c : Char} (h : c = '-' ∨ c.isDigit = true) :
    isSeparator c = false := by
  simp [isSeparator, ne_of_sign_or_digit h (d := ' ') (by decide),
    ne_of_sign_or_digit h (d := '\t') (by decide), ne_of_sign_or_digit h (d := '\n') (by decide),
    ne_of_sign_or_digit h (d := '\r') (by decide)]

theorem after?_of_ne {c w : Char} (h : c ≠ w) (word cs : List Char) :
    after? (w :: word) (c :: cs) = none := by
  rw [after?, if_neg (Ne.symm h)]

theorem Numeral.IsStandard.scalar?_append {n : Numeral} (h : n.IsStandard)
    (hspelled : n.IsSpelledBy text) (hrest : EndsNumeral rest) :
    scalar? (text ++ rest) = some (.number n, rest) := by
  obtain ⟨c, cs, hcons, hc⟩ := h.exists_head hspelled
  have hread := h.numeral?_append hspelled hrest
  rw [hcons, List.cons_append] at hread ⊢
  have hnull : after? "null".toList (c :: (cs ++ rest)) = none :=
    after?_of_ne (ne_of_sign_or_digit hc (by decide)) _ _
  have htrue : after? "true".toList (c :: (cs ++ rest)) = none :=
    after?_of_ne (ne_of_sign_or_digit hc (by decide)) _ _
  have hfalse : after? "false".toList (c :: (cs ++ rest)) = none :=
    after?_of_ne (ne_of_sign_or_digit hc (by decide)) _ _
  unfold scalar?
  rw [hnull, htrue, hfalse, hread]
  rfl

theorem document?_of_scalar {c : Char} (hsep : isSeparator c = false) (hquote : c ≠ '"')
    (hbracket : c ≠ '[') (hbrace : c ≠ '{') (depth : ℕ) (cs : List Char) :
    document? (depth + 1) (c :: cs) = scalar? (c :: cs) := by
  rw [document?, skip_of_not_isSeparator hsep]
  simp [hquote, hbracket, hbrace]

/-! ## Every layout is read back -/

theorem exists_succ_of_le {k : ℕ} (hk : 0 < k) (h : 2 * k ≤ depth) : ∃ d, depth = d + 1 :=
  ⟨depth - 1, by omega⟩

/-- The induction is on the layout; each part of it is read by the lemma on its kind. -/
theorem Spells.reads {document : Json} (h : Spells document text) : Reads document text := by
  induction h with
  | null =>
      intro depth rest hdepth _
      obtain ⟨depth, rfl⟩ := exists_succ_of_le (by decide) hdepth
      refine ⟨rest, ?_, rfl⟩
      exact (document?_of_scalar rfl (by decide) (by decide) (by decide) depth _).trans
        (scalar?_null rest)
  | bool b =>
      intro depth rest hdepth _
      obtain ⟨depth, rfl⟩ := exists_succ_of_le (by cases b <;> decide) hdepth
      refine ⟨rest, ?_, rfl⟩
      rw [← scalar?_boolText]
      cases b <;> exact document?_of_scalar rfl (by decide) (by decide) (by decide) depth _
  | number hn hspelled =>
      intro depth rest hdepth hrest
      obtain ⟨c, cs, hcons, hc⟩ := hn.exists_head hspelled
      obtain ⟨depth, rfl⟩ := exists_succ_of_le (by simp [hcons]) hdepth
      refine ⟨rest, ?_, rfl⟩
      rw [← hn.scalar?_append hspelled hrest, hcons, List.cons_append]
      exact document?_of_scalar (isSeparator_of_sign_or_digit hc) (ne_of_sign_or_digit hc (by decide))
        (ne_of_sign_or_digit hc (by decide)) (ne_of_sign_or_digit hc (by decide)) depth _
  | @string body hbody =>
      intro depth rest hdepth _
      obtain ⟨depth, rfl⟩ := exists_succ_of_le (by simp [quote]) hdepth
      refine ⟨rest, ?_, rfl⟩
      have hquote : quote body ++ rest = '"' :: (body ++ '"' :: rest) := by simp [quote]
      rw [hquote, document?, skip_of_not_isSeparator rfl]
      simp only [hbody.stringBody?_append, Option.map_some]
  | @array parts gap _ hgap ih =>
      intro depth rest hdepth _
      obtain ⟨depth, rfl⟩ := exists_succ_of_le (by simp) hdepth
      refine ⟨rest, ?_, rfl⟩
      have htext : '[' :: (joined (parts.map Prod.snd) ++ (gap ++ [']'])) ++ rest =
          '[' :: (joined (parts.map Prod.snd) ++ (gap ++ ']' :: rest)) := by simp
      rw [htext, document?, skip_of_not_isSeparator rfl]
      simp only
      cases parts with
      | nil =>
          rw [List.map_nil, joined, List.nil_append, skip_append hgap, skip_of_not_isSeparator rfl]
          rfl
      | cons p parts =>
          have hitems := items?_joined hgap (by simp) ih depth rest (by
            simp only [List.length_append, List.length_cons, List.length_nil] at hdepth
            omega)
          rw [← items?_skip] at hitems
          split
          · next hclose =>
              rw [hclose, items?_of_close] at hitems
              exact nomatch hitems
          · rw [hitems]
            rfl
  | @object entries gap hlaid _ hgap ih =>
      intro depth rest hdepth _
      obtain ⟨depth, rfl⟩ := exists_succ_of_le (by simp) hdepth
      refine ⟨rest, ?_, rfl⟩
      have htext : '{' :: (joined (entries.map Entry.spelled) ++ (gap ++ ['}'])) ++ rest =
          '{' :: (joined (entries.map Entry.spelled) ++ (gap ++ '}' :: rest)) := by simp
      rw [htext, document?, skip_of_not_isSeparator rfl]
      simp only
      cases entries with
      | nil =>
          rw [List.map_nil, joined, List.nil_append, skip_append hgap, skip_of_not_isSeparator rfl]
          rfl
      | cons e entries =>
          have hmembers := membersOf?_joined hgap (by simp) hlaid ih depth rest (by
              simp only [List.length_append, List.length_cons, List.length_nil] at hdepth
              omega)
          rw [← membersOf?_skip] at hmembers
          split
          · next hclose =>
              rw [hclose, membersOf?_of_close] at hmembers
              exact nomatch hmembers
          · rw [hmembers]
            rfl
  | padded hbefore _ hafter ih => exact ih.padded hbefore hafter

theorem parse?_of_spells {document : Json} (h : Spells document text) :
    parse? (String.ofList text) = some document := by
  have hrest : EndsNumeral [] := fun c hc ↦ nomatch hc
  obtain ⟨left, hread, hleft⟩ := h.reads (2 * text.length + 2) (by omega) hrest
  rw [List.append_nil] at hread
  unfold parse?
  simp only [String.toList_ofList, hread, Option.bind_eq_bind, Option.bind_some]
  exact if_pos hleft

/-! ## Compact texts and texts over several lines -/

/-- Whether all numerals and strings of a document have the standard form. -/
inductive IsStandard : Json → Prop
  | null : IsStandard .null
  | bool (b : Bool) : IsStandard (.bool b)
  | number {n : Numeral} : n.IsStandard → IsStandard (.number n)
  | string {body : List Char} : IsBody body → IsStandard (.string body)
  | array {items : List Json} : (∀ item ∈ items, IsStandard item) → IsStandard (.array items)
  | object {members : List (List Char × Json)} : (∀ m ∈ members, IsBody m.1) →
      (∀ m ∈ members, IsStandard m.2) → IsStandard (.object members)

theorem compactItems_eq (items : List Json) : compactItems items = joined (items.map compact) := by
  induction items with
  | nil => rfl
  | cons item items ih => rw [compactItems, ih, List.map_cons, joined, List.isEmpty_map]

theorem compactMembers_eq (members : List (List Char × Json)) :
    compactMembers members = joined (members.map compactMember) := by
  induction members with
  | nil => rfl
  | cons m members ih => rw [compactMembers, ih, List.map_cons, joined, List.isEmpty_map]

theorem spreadItems_eq (indent : ℕ) (items : List Json) :
    spreadItems indent items = joined (items.map fun i ↦ newline indent ++ spread indent i) := by
  induction items with
  | nil => rfl
  | cons item items ih => rw [spreadItems, ih, List.map_cons, joined, List.isEmpty_map]

theorem spreadMembers_eq (indent : ℕ) (members : List (List Char × Json)) :
    spreadMembers indent members =
      joined (members.map fun m ↦ newline indent ++ spreadMember indent m) := by
  induction members with
  | nil => rfl
  | cons m members ih => rw [spreadMembers, ih, List.map_cons, joined, List.isEmpty_map]

theorem compactMember_eq : compactMember = fun m ↦ quote m.1 ++ ':' :: compact m.2 := by
  funext m
  rw [compactMember]

theorem spreadMember_eq (indent : ℕ) :
    spreadMember indent = fun m ↦ quote m.1 ++ ':' :: ' ' :: spread indent m.2 := by
  funext m
  rw [spreadMember]

theorem isGap_nil : IsGap [] := fun _ hc ↦ nomatch hc

theorem isGap_newline (indent : ℕ) : IsGap (newline indent) := by
  intro c hc
  rcases List.mem_cons.mp hc with rfl | hc
  · rfl
  · rw [List.eq_of_mem_replicate hc]
    rfl

theorem Spells.array_map {items : List Json} {layout : Json → List Char}
    (h : ∀ item ∈ items, Spells item (layout item)) (hgap : IsGap gap) :
    Spells (.array items) ('[' :: (joined (items.map layout) ++ (gap ++ [']']))) := by
  let parts : List (Json × List Char) := items.map fun i ↦ (i, layout i)
  have hparts : ∀ p ∈ parts, Spells p.1 p.2 := by
    intro p hp
    obtain ⟨item, hitem, rfl⟩ := List.mem_map.mp hp
    exact h item hitem
  simpa [parts, Function.comp_def] using Spells.array hparts hgap

theorem Spells.object_map {members : List (List Char × Json)} {layout : Json → List Char}
    {before after : List Char} (hnames : ∀ m ∈ members, IsBody m.1)
    (h : ∀ m ∈ members, Spells m.2 (layout m.2)) (hbefore : IsGap before) (hafter : IsGap after)
    (hgap : IsGap gap) :
    Spells (.object members) ('{' :: (joined (members.map fun m ↦
      before ++ (quote m.1 ++ ':' :: (after ++ layout m.2))) ++ (gap ++ ['}']))) := by
  let entries : List Entry :=
    members.map fun m ↦ ⟨before, m.1, [], m.2, after ++ (layout m.2 ++ [])⟩
  have hlaid : ∀ e ∈ entries, e.IsLaidOut := by
    intro e he
    obtain ⟨m, hm, rfl⟩ := List.mem_map.mp he
    exact ⟨hbefore, hnames m hm, isGap_nil⟩
  have hvalues : ∀ e ∈ entries, Spells e.value e.text := by
    intro e he
    obtain ⟨m, hm, rfl⟩ := List.mem_map.mp he
    exact (h m hm).padded hafter isGap_nil
  simpa [entries, Function.comp_def, Entry.member, Entry.spelled] using
    Spells.object hlaid hvalues hgap

theorem IsStandard.spells_compact {document : Json} (h : IsStandard document) :
    Spells document document.compact := by
  induction h with
  | null => exact .null
  | bool b => exact .bool b
  | @number n hn => exact .number hn n.isSpelledBy_print
  | string hbody => exact .string hbody
  | array _ ih =>
      rw [compact, compactItems_eq]
      exact .array_map ih isGap_nil
  | object hnames _ ih =>
      rw [compact, compactMembers_eq]
      simpa [compactMember_eq] using Spells.object_map hnames ih isGap_nil isGap_nil isGap_nil

theorem IsStandard.spells_spread {document : Json} (h : IsStandard document) (indent : ℕ) :
    Spells document (document.spread indent) := by
  induction h generalizing indent with
  | null => exact .null
  | bool b => exact .bool b
  | @number n hn => exact .number hn n.isSpelledBy_print
  | string hbody => exact .string hbody
  | @array items _ ih =>
      cases items with
      | nil =>
          have hnone : ∀ p ∈ ([] : List (Json × List Char)), Spells p.1 p.2 := fun _ hp ↦ nomatch hp
          exact .array hnone isGap_nil
      | cons item items =>
          rw [spread, spreadItems_eq]
          have hitems : ∀ i ∈ item :: items,
              Spells i (newline (indent + 2) ++ (spread (indent + 2) i ++ [])) :=
            fun i hi ↦ (ih i hi (indent + 2)).padded (isGap_newline _) isGap_nil
          simpa using Spells.array_map hitems (isGap_newline indent)
  | @object members hnames _ ih =>
      cases members with
      | nil =>
          have hnone : ∀ e ∈ ([] : List Entry), e.IsLaidOut := fun _ he ↦ nomatch he
          exact .object hnone (fun _ he ↦ nomatch he) isGap_nil
      | cons m members =>
          rw [spread, spreadMembers_eq]
          have hmembers : ∀ x ∈ m :: members, Spells x.2 (spread (indent + 2) x.2) :=
            fun x hx ↦ ih x hx (indent + 2)
          have hspace : IsGap [' '] := by
            intro c hc
            rw [List.mem_singleton.mp hc]
            rfl
          simpa [spreadMember_eq] using Spells.object_map hnames hmembers (isGap_newline (indent + 2))
            hspace (isGap_newline indent)

/-- Documents in the standard form are read back from both of their texts. -/
theorem IsStandard.parse?_text {document : Json} (h : IsStandard document) :
    parse? document.compactText = some document ∧ parse? document.prettyText = some document :=
  ⟨parse?_of_spells h.spells_compact, parse?_of_spells (h.spells_spread 0)⟩

/-! ## Documents that are written -/

theorem isStandard_ofFloat (x : Float) : IsStandard (ofFloat x) := by
  unfold ofFloat
  split
  · next n hn => exact .number (isStandard_of_ofFloat? hn)
  · exact .null

theorem isStandard_record {fields : List (String × Json)}
    (h : ∀ field ∈ fields, IsStandard field.2) : IsStandard (record fields) := by
  refine .object ?_ ?_
  · intro m hm
    obtain ⟨field, -, rfl⟩ := List.mem_map.mp hm
    exact isBody_escape _
  · intro m hm
    obtain ⟨field, hfield, rfl⟩ := List.mem_map.mp hm
    exact h field hfield

end CurveSearch.Json
