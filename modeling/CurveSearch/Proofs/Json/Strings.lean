import CurveSearch.Json.Parsing
import CurveSearch.Json.Printing
import Mathlib.Data.List.Basic
import Mathlib.Tactic.IntervalCases

/-!
# Strings between quotes

The text between two quotes is a sequence of plain characters, short escapes and escapes of code
units. Every text that is escaped has this form, and is read back from it.
-/

namespace CurveSearch.Json

/-! ## The form of a body -/

/-- The texts that may stand between two quotes. -/
inductive IsBody : List Char → Prop
  | nil : IsBody []
  | plain {c : Char} {body : List Char} :
      ¬ c < ' ' → c ≠ '"' → c ≠ '\\' → IsBody body → IsBody (c :: body)
  | short {e : Char} {body : List Char} :
      (shortEscape? e).isSome → IsBody body → IsBody ('\\' :: e :: body)
  | unit {a b c d : Char} {body : List Char} :
      [a, b, c, d].all isHexDigit → IsBody body → IsBody ('\\' :: 'u' :: a :: b :: c :: d :: body)

theorem stringBody?_of_plain {c : Char} (hc : ¬ c < ' ') (hquote : c ≠ '"') (hback : c ≠ '\\')
    (cs : List Char) :
    stringBody? (c :: cs) = (stringBody? cs).map fun (body, rest) ↦ (c :: body, rest) := by
  rw [stringBody?]
  · simp [hc, hback]
  · exact hquote
  · rintro a b c d - rfl
    exact absurd rfl hback
  · rintro e - rfl
    exact absurd rfl hback

theorem stringBody?_of_short {e : Char} (he : (shortEscape? e).isSome) (cs : List Char) :
    stringBody? ('\\' :: e :: cs) =
      (stringBody? cs).map fun (body, rest) ↦ ('\\' :: e :: body, rest) := by
  rw [stringBody?]
  · rw [if_pos he]
  · rintro a b c d - rfl
    exact absurd he (by decide)

theorem stringBody?_of_unit {a b c d : Char} (h : [a, b, c, d].all isHexDigit) (cs : List Char) :
    stringBody? ('\\' :: 'u' :: a :: b :: c :: d :: cs) =
      (stringBody? cs).map fun (body, rest) ↦
        ('\\' :: 'u' :: a :: b :: c :: d :: body, rest) := by
  rw [stringBody?, if_pos h]

/-- A body is read up to the next quote. -/
theorem IsBody.stringBody?_append {body : List Char} (h : IsBody body) (rest : List Char) :
    stringBody? (body ++ '"' :: rest) = some (body, rest) := by
  induction h with
  | nil => rfl
  | plain hc hquote hback _ ih =>
      rw [List.cons_append, stringBody?_of_plain hc hquote hback, ih]
      rfl
  | short he _ ih =>
      rw [List.cons_append, List.cons_append, stringBody?_of_short he, ih]
      rfl
  | unit hhex _ ih =>
      simp only [List.cons_append]
      rw [stringBody?_of_unit hhex, ih]
      rfl

/-! ## Escapes -/

theorem isHexDigit_digitChar {n : ℕ} (hn : n < 16) : isHexDigit (Nat.digitChar n) := by
  interval_cases n <;> rfl

theorem toNat_lt_of_lt_space {c : Char} (hc : c < ' ') : c.toNat < 32 := hc

theorem IsBody.escapeChar_append (c : Char) {body : List Char} (h : IsBody body) :
    IsBody (escapeChar c ++ body) := by
  unfold escapeChar
  split_ifs with hquote hback _ _ _ _ _ hcontrol
  · exact .short rfl h
  · exact .short rfl h
  · exact .short rfl h
  · exact .short rfl h
  · exact .short rfl h
  · exact .short rfl h
  · exact .short rfl h
  · have hlt := toNat_lt_of_lt_space hcontrol
    have hhigh := isHexDigit_digitChar (n := c.toNat / 16) (by omega)
    have hlow := isHexDigit_digitChar (n := c.toNat % 16) (by omega)
    refine .unit ?_ h
    rw [List.all_cons, List.all_cons, List.all_cons, List.all_cons, hhigh, hlow]
    rfl
  · exact .plain hcontrol hquote hback h

theorem isBody_escape (text : List Char) : IsBody (escape text) := by
  induction text with
  | nil => exact .nil
  | cons c text ih =>
      rw [escape, List.flatMap_cons]
      exact ih.escapeChar_append c

def charsOf? (body : List Char) : Option (List Char) := (splitUnits body).bind joinUnits

theorem splitUnits_of_plain {c : Char} (hc : c ≠ '\\') (cs : List Char) :
    splitUnits (c :: cs) = (splitUnits cs).map (.inr c :: ·) := by
  rw [splitUnits]
  · rintro a b c d - rfl
    exact absurd rfl hc
  · rintro e - rfl
    exact absurd rfl hc

theorem splitUnits_of_short {e c : Char} (he : shortEscape? e = some c) (cs : List Char) :
    splitUnits ('\\' :: e :: cs) = (splitUnits cs).map (.inr c :: ·) := by
  rw [splitUnits]
  · rw [he]
    rfl
  · rintro a b c d rest rfl -
    exact nomatch he

theorem charsOf?_of_split {c : Char} {cs body : List Char}
    (h : splitUnits (cs ++ body) = (splitUnits body).map (.inr c :: ·)) :
    charsOf? (cs ++ body) = (charsOf? body).map (c :: ·) := by
  unfold charsOf?
  rw [h]
  cases splitUnits body <;> rfl

theorem ofHex_control {n : ℕ} (hn : n < 32) :
    ofHex ['0', '0', Nat.digitChar (n / 16), Nat.digitChar (n % 16)] = n := by
  interval_cases n <;> rfl

theorem joinUnits_of_not_high {n : ℕ} (hn : ¬ (0xd800 ≤ n ∧ n < 0xdc00))
    (units : List (ℕ ⊕ Char)) :
    joinUnits (.inl n :: units) =
      if 0xdc00 ≤ n ∧ n < 0xe000 then none else (joinUnits units).map (Char.ofNat n :: ·) := by
  conv_lhs => unfold joinUnits
  simp only
  rw [if_neg hn]

theorem joinUnits_of_control {n : ℕ} (hn : n < 32) (units : List (ℕ ⊕ Char)) :
    joinUnits (.inl n :: units) = (joinUnits units).map (Char.ofNat n :: ·) := by
  rw [joinUnits_of_not_high (by omega), if_neg (by omega)]

theorem charsOf?_escapeChar_append (c : Char) (body : List Char) :
    charsOf? (escapeChar c ++ body) = (charsOf? body).map (c :: ·) := by
  unfold escapeChar
  split_ifs with hquote hback hb hf hn hr ht hcontrol
  · exact charsOf?_of_split (splitUnits_of_short (by rw [hquote]; rfl) _)
  · exact charsOf?_of_split (splitUnits_of_short (by rw [hback]; rfl) _)
  · exact charsOf?_of_split (splitUnits_of_short (by rw [hb]; rfl) _)
  · exact charsOf?_of_split (splitUnits_of_short (by rw [hf]; rfl) _)
  · exact charsOf?_of_split (splitUnits_of_short (by rw [hn]; rfl) _)
  · exact charsOf?_of_split (splitUnits_of_short (by rw [hr]; rfl) _)
  · exact charsOf?_of_split (splitUnits_of_short (by rw [ht]; rfl) _)
  · have hlt := toNat_lt_of_lt_space hcontrol
    simp only [charsOf?, List.cons_append, List.nil_append]
    rw [splitUnits, ofHex_control hlt]
    cases splitUnits body with
    | none => rfl
    | some units =>
        rw [Option.map_some, Option.bind_some, joinUnits_of_control hlt, Char.ofNat_toNat]
        rfl
  · exact charsOf?_of_split (splitUnits_of_plain hback _)

theorem charsOf?_escape (text : List Char) : charsOf? (escape text) = some text := by
  induction text with
  | nil => rfl
  | cons c text ih =>
      change charsOf? (escapeChar c ++ escape text) = _
      rw [charsOf?_escapeChar_append, ih]
      rfl

/-- Every text is read back from its escapes. -/
theorem unescape?_escape (text : String) : unescape? (escape text.toList) = some text := by
  change (charsOf? _).map String.ofList = _
  rw [charsOf?_escape, Option.map_some, String.ofList_toList]

end CurveSearch.Json
