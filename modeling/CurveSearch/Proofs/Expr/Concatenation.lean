import CurveSearch.Proofs.Expr.Scanning

/-!
# Texts one after another

The tokens of two texts with a blank between them are the tokens of the first and then those of the
second, and so are their errors: the first text fails as it does alone, and an offset in the second
one counts the characters before it. A character that starts no token is reported with its offset,
and everything before it has been scanned.
-/

namespace CurveSearch.Expr

/-- The error of a text after some characters have been put in front of it. -/
def SyntaxError.shift (k : ℕ) : SyntaxError → SyntaxError
  | .unexpectedChar c offset => .unexpectedChar c (offset + k)
  | err => err

namespace Token

variable {offset : ℕ} {c : Char} {cs rest : List Char}

/-! ## Tokens of both texts -/

theorem map_cons_bind (t : Token) (r q : Except SyntaxError (List Token)) :
    ((t :: ·) <$> do
      let ts ← r
      let us ← q
      return ts ++ us) = do
      let ts ← (t :: ·) <$> r
      let us ← q
      return ts ++ us := by
  cases r <;> cases q <;> rfl

theorem head?_append {p : Char → Bool} (hcs : ∀ d ∈ cs.head?, p d = false)
    (hrest : ∀ d ∈ rest.head?, p d = false) : ∀ d ∈ (cs ++ rest).head?, p d = false := by
  cases cs with
  | nil => exact hrest
  | cons c cs => exact hcs

theorem scan_append (hrest : EndsWord rest) (offset : ℕ) (cs : List Char) :
    scan offset (cs ++ rest) = do
      let ts ← scan offset cs
      let us ← scan (offset + cs.length) rest
      return ts ++ us := by
  induction cs using text_induction generalizing offset with
  | nil =>
      rw [scan]
      exact (bind_pure _).symm
  | blank c cs hblank ih =>
      rw [List.cons_append, scan_blank hblank, scan_blank hblank, ih, List.length_cons,
        Nat.add_assoc, Nat.add_comm 1]
  | sign c cs t hsign hblank ih =>
      rw [List.cons_append, scan_sign hsign hblank, scan_sign hsign hblank, ih, map_cons_bind,
        List.length_cons, Nat.add_assoc, Nat.add_comm 1]
  | numeral c cs tail hcs htail ih =>
      have htail' := head?_append htail fun d hd ↦ (hrest d hd).1
      rw [List.append_assoc, scan_numeral hcs htail', scan_numeral hcs htail, List.length_append,
        ← Nat.add_assoc]
      cases Decimal.read? (c :: cs) with
      | none => rfl
      | some v =>
          simp only
          rw [ih, map_cons_bind]
  | name c cs tail hc hcs htail ih =>
      have htail' := head?_append htail fun d hd ↦ (hrest d hd).2
      rw [List.append_assoc, scan_name hc hcs htail', scan_name hc hcs htail, List.length_append,
        ← Nat.add_assoc, ih, map_cons_bind]
  | foreign c cs hc =>
      rw [List.cons_append, scan_foreign hc, scan_foreign hc]
      rfl

theorem mapError_map_cons (k : ℕ) (t : Token) (r : Except SyntaxError (List Token)) :
    ((t :: ·) <$> r).mapError (·.shift k) = (t :: ·) <$> r.mapError (·.shift k) := by
  cases r <;> rfl

theorem scan_add (k offset : ℕ) (cs : List Char) :
    scan (offset + k) cs = (scan offset cs).mapError (·.shift k) := by
  induction cs using text_induction generalizing offset with
  | nil =>
      rw [scan, scan]
      rfl
  | blank c cs hblank ih => rw [scan_blank hblank, scan_blank hblank, ← ih, Nat.add_right_comm]
  | sign c cs t hsign hblank ih =>
      rw [scan_sign hsign hblank, scan_sign hsign hblank, mapError_map_cons, ← ih,
        Nat.add_right_comm]
  | numeral c cs rest hcs hrest ih =>
      rw [scan_numeral hcs hrest, scan_numeral hcs hrest]
      cases Decimal.read? (c :: cs) with
      | none => rfl
      | some v =>
          simp only
          rw [mapError_map_cons, ← ih, Nat.add_right_comm]
  | name c cs rest hc hcs hrest ih =>
      rw [scan_name hc hcs hrest, scan_name hc hcs hrest, mapError_map_cons, ← ih,
        Nat.add_right_comm]
  | foreign c cs hc =>
      rw [scan_foreign hc, scan_foreign hc]
      rfl

/-- What a scan that starts at an offset can fail with. -/
inductive ErrorOf (offset : ℕ) (cs : List Char) : SyntaxError → Prop
  | invalidNumber (literal : String) : ErrorOf offset cs (.invalidNumber literal)
  | unexpectedChar {i : ℕ} {c : Char} :
      cs[i]? = some c → IsForeign c → ErrorOf offset cs (.unexpectedChar c (offset + i))

theorem ErrorOf.append {err : SyntaxError} (before : List Char)
    (h : ErrorOf (offset + before.length) cs err) : ErrorOf offset (before ++ cs) err := by
  cases h with
  | invalidNumber literal => exact .invalidNumber literal
  | @unexpectedChar i c hi hc =>
      rw [Nat.add_assoc]
      refine .unexpectedChar ?_ hc
      rw [List.getElem?_append_right (Nat.le_add_right _ _), Nat.add_sub_cancel_left]
      exact hi

theorem eq_error_of_map_cons {t : Token} {r : Except SyntaxError (List Token)} {err : SyntaxError}
    (h : (t :: ·) <$> r = .error err) : r = .error err := by
  cases r with
  | error err' => exact h
  | ok ts => exact nomatch h

theorem errorOf_scan {err : SyntaxError} (h : scan offset cs = .error err) :
    ErrorOf offset cs err := by
  induction cs using text_induction generalizing offset with
  | nil =>
      rw [scan] at h
      cases h
  | blank c cs hblank ih =>
      rw [scan_blank hblank] at h
      exact (ih h).append [c]
  | sign c cs t hsign hblank ih =>
      rw [scan_sign hsign hblank] at h
      exact (ih (eq_error_of_map_cons h)).append [c]
  | numeral c cs rest hcs hrest ih =>
      rw [scan_numeral hcs hrest] at h
      cases hv : Decimal.read? (c :: cs) with
      | none =>
          rw [hv] at h
          cases h
          exact .invalidNumber _
      | some v =>
          rw [hv] at h
          exact (ih (eq_error_of_map_cons h)).append (c :: cs)
  | name c cs rest hc hcs hrest ih =>
      rw [scan_name hc hcs hrest] at h
      exact (ih (eq_error_of_map_cons h)).append (c :: cs)
  | foreign c cs hc =>
      rw [scan_foreign hc] at h
      cases h
      exact .unexpectedChar (i := 0) rfl hc

theorem IsForeign.endsWord (h : IsForeign c) (cs : List Char) : EndsWord (c :: cs) := by
  rintro d ⟨⟩
  exact ⟨h.not_numeral, isNameChar_eq_false h.not_numeral h.not_nameStart⟩

theorem exists_scan_take {k : ℕ} (h : scan 0 cs = .error (.unexpectedChar c k)) :
    cs[k]? = some c ∧ ∃ ts, scan 0 (cs.take k) = .ok ts := by
  obtain ⟨hk, hc⟩ : cs[k]? = some c ∧ IsForeign c := by
    generalize herr : SyntaxError.unexpectedChar c k = err at h
    cases errorOf_scan h with
    | invalidNumber literal => exact nomatch herr
    | unexpectedChar hi hc =>
        cases herr
        rw [Nat.zero_add]
        exact ⟨hi, hc⟩
  refine ⟨hk, ?_⟩
  obtain ⟨hlt, rfl⟩ := List.getElem?_eq_some_iff.mp hk
  cases hbefore : scan 0 (cs.take k) with
  | ok ts => exact ⟨ts, rfl⟩
  | error err =>
      -- The error of the beginning would be the one of the whole, which lies behind the beginning.
      have hend : EndsWord (cs.drop k) := by
        rw [List.drop_eq_getElem_cons hlt]
        exact hc.endsWord _
      have hwhole := scan_append hend 0 (cs.take k)
      rw [List.take_append_drop, hbefore, h] at hwhole
      cases hwhole
      generalize herr : SyntaxError.unexpectedChar cs[k] k = err at hbefore
      cases errorOf_scan hbefore with
      | invalidNumber literal => exact nomatch herr
      | unexpectedChar hi hc =>
          cases herr
          simp at hi

/-- The tokens of a text, where a text without tokens has none. -/
def allowEmpty : Except SyntaxError (List Token) → Except SyntaxError (List Token)
  | .error .empty => .ok []
  | result => result

theorem allowEmpty_ofText (cs : List Char) : allowEmpty (ofText cs) = scan 0 cs := by
  unfold ofText
  cases h : scan 0 cs with
  | ok ts => cases ts <;> rfl
  | error err => cases errorOf_scan h <;> rfl

theorem ofText_eq_scan_of_error {cs : List Char} {c : Char} {k : ℕ}
    (h : ofText cs = .error (.unexpectedChar c k)) : scan 0 cs = .error (.unexpectedChar c k) := by
  rw [← allowEmpty_ofText, h]
  rfl

/-- The tokens of two texts with a blank between them, or the first error, whose offset counts from
the beginning of the first text. A character that is reported stands at its offset, and what comes
before it has no error. -/
theorem ofText_append_blank (s t : List Char) :
    (ofText (s ++ ' ' :: t) =
      match allowEmpty (ofText s), allowEmpty (ofText t) with
      | .error err, _ => .error err
      | .ok _, .error err => .error (err.shift (s.length + 1))
      | .ok [], .ok [] => .error .empty
      | .ok ts, .ok us => .ok (ts ++ us)) ∧
    ∀ c k, ofText s = .error (.unexpectedChar c k) →
      s[k]? = some c ∧ ∃ ts, allowEmpty (ofText (s.take k)) = .ok ts := by
  constructor
  · have hend : EndsWord (' ' :: t) := by
      rintro d ⟨⟩
      exact ⟨rfl, rfl⟩
    have hscan : scan 0 (s ++ ' ' :: t) = do
        let ts ← scan 0 s
        let us ← (scan 0 t).mapError (·.shift (s.length + 1))
        return ts ++ us := by
      rw [scan_append hend, scan_blank rfl, Nat.add_assoc, ← scan_add]
    rw [allowEmpty_ofText, allowEmpty_ofText]
    unfold ofText
    rw [hscan]
    cases scan 0 s with
    | error err => rfl
    | ok ts =>
        cases scan 0 t with
        | error err => rfl
        | ok us => cases ts <;> cases us <;> rfl
  · intro c k h
    simp only [allowEmpty_ofText]
    exact exists_scan_take (ofText_eq_scan_of_error h)

theorem isForeign_dollar : IsForeign '$' := by
  refine ⟨?_, ?_, ?_, ?_⟩ <;> decide

/-- The dollar sign of the second text is reported two characters further on. -/
theorem ofText_append_blank_dollar :
    ofText ['$'] = .error (.unexpectedChar '$' 0) ∧
    ofText ['a', ' ', '$'] = .error (.unexpectedChar '$' 2) ∧
    ['a', ' ', '$'][2]? = some '$' ∧ ∃ ts, allowEmpty (ofText ['a', ' ']) = .ok ts := by
  have hname : Scans (['a'] ++ []) [.name "a"] := scans_nil.name nofun rfl
  have hfirst : ofText ['a'] = .ok [.name "a"] := ofText_of_scans hname nofun
  have hsecond : ofText ['$'] = .error (.unexpectedChar '$' 0) := by
    unfold ofText
    rw [scan_foreign isForeign_dollar]
  have hboth : ofText ['a', ' ', '$'] = .error (.unexpectedChar '$' 2) := by
    have h := (ofText_append_blank ['a'] ['$']).1
    rw [hfirst, hsecond] at h
    exact h
  exact ⟨hsecond, hboth, (ofText_append_blank ['a', ' ', '$'] []).2 '$' 2 hboth⟩

end Token
end CurveSearch.Expr
