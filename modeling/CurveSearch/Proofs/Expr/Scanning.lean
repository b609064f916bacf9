import CurveSearch.Expr.Token
import CurveSearch.Proofs.Decimal.RoundTrip

/-!
# Scanning

A text is scanned token by token: a sign is one character, a numeral and a name are maximal runs of
their characters. What is scanned from any text is legible: its numbers are infinite or finite with
a clear sign bit, and its names are identifiers.
-/

namespace CurveSearch.Expr

/-- An ASCII letter or an underscore, and then also digits. -/
def isName : List Char → Bool
  | [] => false
  | c :: cs => Token.isNameStart c && cs.all Token.isNameChar

namespace Token

/-- What a numeral can stand for. -/
def IsLiteral (v : Float) : Prop :=
  v.isFinite = true ∧ Binary64.isSignMinus v = false ∨ v = Binary64.infinity

/-- What a text can be scanned into. -/
def IsLegible : Token → Prop
  | .number v => IsLiteral v
  | .name s => isName s.toList = true
  | _ => True

variable {offset : Nat} {c : Char} {cs rest : List Char}

/-! ## Kinds of characters -/

theorem isNumeral_iff : isNumeral c = true ↔ c.isDigit = true ∨ c = '.' := by
  simp [isNumeral]

theorem toNat_of_isNumeral (h : isNumeral c = true) : 46 ≤ c.toNat ∧ c.toNat ≤ 57 := by
  rcases isNumeral_iff.mp h with h | rfl
  · simp only [Char.isDigit, Bool.and_eq_true, decide_eq_true_eq, ge_iff_le,
      UInt32.le_iff_toNat_le] at h
    change 48 ≤ c.toNat ∧ c.toNat ≤ 57 at h
    omega
  · decide

theorem toNat_of_isNameStart (h : isNameStart c = true) : 65 ≤ c.toNat ∧ c.toNat ≤ 122 := by
  simp only [isNameStart, Char.isAlpha, Char.isUpper, Char.isLower, Bool.or_eq_true,
    Bool.and_eq_true, decide_eq_true_eq, ge_iff_le, UInt32.le_iff_toNat_le] at h
  rcases h with (h | h) | rfl
  · change 65 ≤ c.toNat ∧ c.toNat ≤ 90 at h
    omega
  · change 97 ≤ c.toNat ∧ c.toNat ≤ 122 at h
    omega
  · decide

theorem isNumeral_eq_false_of_isNameStart (h : isNameStart c = true) : isNumeral c = false := by
  have hname := toNat_of_isNameStart h
  rw [Bool.eq_false_iff]
  intro hnumeral
  have := toNat_of_isNumeral hnumeral
  omega

/-- What starts a numeral or a name is neither blank nor a sign. -/
theorem isBlank_and_ofSign?_of_word (h : isNumeral c = true ∨ isNameStart c = true) :
    Text.isBlank c = false ∧ ofSign? c = none := by
  constructor
  · have hrange : 46 ≤ c.toNat ∧ c.toNat ≤ 122 := by
      rcases h with h | h
      · have := toNat_of_isNumeral h
        omega
      · have := toNat_of_isNameStart h
        omega
    simp only [Text.isBlank, Text.blankRanges, List.any_eq_false, List.forall_mem_cons]
    simp
    omega
  · unfold ofSign?
    split
    case h_13 => rfl
    all_goals
      revert h
      decide

theorem isNameChar_eq_false (hnumeral : isNumeral c = false) (hname : isNameStart c = false) :
    isNameChar c = false := by
  simp only [isNumeral, isNameStart, Bool.or_eq_false_iff] at hnumeral hname
  simp [isNameChar, Char.isAlphanum, hnumeral.1, hname.1, hname.2]

/-- A character that starts no token and separates none. -/
structure IsForeign (c : Char) : Prop where
  not_blank : Text.isBlank c = false
  no_sign : ofSign? c = none
  not_numeral : isNumeral c = false
  not_nameStart : isNameStart c = false

/-! ## One token -/

theorem takeWhile_append_of_stop {p : Char → Bool} (h : ∀ c ∈ cs, p c = true)
    (hrest : ∀ c ∈ rest.head?, p c = false) :
    (cs ++ rest).takeWhile p = cs ∧ (cs ++ rest).dropWhile p = rest := by
  rw [List.takeWhile_append_of_pos h, List.dropWhile_append_of_pos h]
  cases rest with
  | nil => simp
  | cons d ds => simp [hrest d rfl]

theorem scan_blank (h : Text.isBlank c = true) : scan offset (c :: cs) = scan (offset + 1) cs := by
  rw [scan, if_pos h]

theorem scan_sign {t : Token} (hsign : ofSign? c = some t) (hblank : Text.isBlank c = false) :
    scan offset (c :: cs) = (t :: ·) <$> scan (offset + 1) cs := by
  rw [scan, if_neg (by simp [hblank]), hsign]

theorem scan_numeral (hcs : ∀ d ∈ c :: cs, isNumeral d = true)
    (hrest : ∀ d ∈ rest.head?, isNumeral d = false) :
    scan offset (c :: cs ++ rest) =
      match Decimal.read? (c :: cs) with
      | some v => (.number v :: ·) <$> scan (offset + (c :: cs).length) rest
      | none => .error (.invalidNumber (String.ofList (c :: cs))) := by
  have hc : isNumeral c = true := hcs c List.mem_cons_self
  obtain ⟨hblank, hsign⟩ := isBlank_and_ofSign?_of_word (.inl hc)
  obtain ⟨htake, hdrop⟩ := takeWhile_append_of_stop
    (fun d hd ↦ hcs d (List.mem_cons_of_mem _ hd)) hrest
  rw [List.cons_append, scan, if_neg (by simp [hblank]), hsign]
  cases hread : Decimal.read? (c :: cs) with
  | none => simp only [hc, htake, hread, if_true]
  | some v => simp only [hc, htake, hdrop, hread, if_true]

theorem scan_name (hc : isNameStart c = true) (hcs : ∀ d ∈ cs, isNameChar d = true)
    (hrest : ∀ d ∈ rest.head?, isNameChar d = false) :
    scan offset (c :: cs ++ rest) =
      (.name (String.ofList (c :: cs)) :: ·) <$> scan (offset + (c :: cs).length) rest := by
  obtain ⟨hblank, hsign⟩ := isBlank_and_ofSign?_of_word (.inr hc)
  obtain ⟨htake, hdrop⟩ := takeWhile_append_of_stop hcs hrest
  rw [List.cons_append, scan, if_neg (by simp [hblank]), hsign]
  simp only [isNumeral_eq_false_of_isNameStart hc, hc, htake, hdrop, if_true]
  rfl

theorem scan_foreign (h : IsForeign c) :
    scan offset (c :: cs) = .error (.unexpectedChar c offset) := by
  rw [scan, if_neg (by simp [h.not_blank]), h.no_sign]
  simp [h.not_numeral, h.not_nameStart]

/-! ## All tokens -/

theorem head?_dropWhile {p : Char → Bool} (cs : List Char) :
    ∀ d ∈ (cs.dropWhile p).head?, p d = false := by
  intro d hd
  have hstop := List.head?_dropWhile_not p cs
  rw [Option.mem_def.mp hd] at hstop
  simpa using hstop

/-- Induction on a text in the way it is scanned. What comes first is a blank, a sign, a whole
numeral, a whole name, or a character that starts no token. -/
@[elab_as_elim]
theorem text_induction {motive : List Char → Prop} (nil : motive [])
    (blank : ∀ c cs, Text.isBlank c = true → motive cs → motive (c :: cs))
    (sign : ∀ c cs t, ofSign? c = some t → Text.isBlank c = false → motive cs → motive (c :: cs))
    (numeral : ∀ c cs rest, (∀ d ∈ c :: cs, isNumeral d = true) →
      (∀ d ∈ rest.head?, isNumeral d = false) → motive rest → motive (c :: cs ++ rest))
    (name : ∀ c cs rest, isNameStart c = true → (∀ d ∈ cs, isNameChar d = true) →
      (∀ d ∈ rest.head?, isNameChar d = false) → motive rest → motive (c :: cs ++ rest))
    (foreign : ∀ c cs, IsForeign c → motive (c :: cs)) (cs : List Char) : motive cs := by
  induction hlength : cs.length using Nat.strong_induction_on generalizing cs with
  | _ n ih =>
      cases cs with
      | nil => exact nil
      | cons c cs =>
          rw [List.length_cons] at hlength
          have hcs : motive cs := ih _ (by omega) cs rfl
          have hrest (p : Char → Bool) : motive (cs.dropWhile p) := by
            have hle := length_dropWhile_le p cs
            exact ih _ (by omega) _ rfl
          cases hblank : Text.isBlank c with
          | true => exact blank c cs hblank hcs
          | false =>
              cases hsign : ofSign? c with
              | some t => exact sign c cs t hsign hblank hcs
              | none =>
                  cases hnumeral : isNumeral c with
                  | true =>
                      rw [← List.takeWhile_append_dropWhile (p := isNumeral) (l := cs)]
                      have hall : ∀ d ∈ c :: cs.takeWhile isNumeral, isNumeral d = true :=
                        List.forall_mem_cons.mpr ⟨hnumeral, fun _ ↦ List.mem_takeWhile_imp⟩
                      exact numeral c _ _ hall (head?_dropWhile cs) (hrest _)
                  | false =>
                      cases hname : isNameStart c with
                      | true =>
                          rw [← List.takeWhile_append_dropWhile (p := isNameChar) (l := cs)]
                          exact name c _ _ hname (fun _ ↦ List.mem_takeWhile_imp)
                            (head?_dropWhile cs) (hrest _)
                      | false => exact foreign c cs ⟨hblank, hsign, hnumeral, hname⟩

/-- A text is scanned into some tokens, whatever the offset of its first character is. -/
def Scans (cs : List Char) (ts : List Token) : Prop := ∀ offset, scan offset cs = .ok ts

/-- A text does not go on with the characters of a numeral or a name. -/
def EndsWord (cs : List Char) : Prop := ∀ d ∈ cs.head?, isNumeral d = false ∧ isNameChar d = false

variable {ts : List Token}

theorem scans_nil : Scans [] [] := by
  intro offset
  rw [scan]

theorem Scans.blank (h : Scans cs ts) (hblank : Text.isBlank c = true) : Scans (c :: cs) ts := by
  intro offset
  rw [scan_blank hblank]
  exact h _

theorem Scans.sign {t : Token} (h : Scans cs ts) (hsign : ofSign? c = some t)
    (hblank : Text.isBlank c = false) : Scans (c :: cs) (t :: ts) := by
  intro offset
  rw [scan_sign hsign hblank, h]
  rfl

theorem Scans.numeral {v : Float} (h : Scans rest ts) (hrest : EndsWord rest)
    (hcs : ∀ d ∈ c :: cs, isNumeral d = true) (hv : Decimal.read? (c :: cs) = some v) :
    Scans (c :: cs ++ rest) (.number v :: ts) := by
  intro offset
  rw [scan_numeral hcs fun d hd ↦ (hrest d hd).1, hv, h]
  rfl

theorem Scans.name (h : Scans rest ts) (hrest : EndsWord rest) (hname : isName cs = true) :
    Scans (cs ++ rest) (.name (String.ofList cs) :: ts) := by
  intro offset
  cases cs with
  | nil => cases hname
  | cons c cs =>
      simp only [isName, Bool.and_eq_true, List.all_eq_true] at hname
      rw [scan_name hname.1 hname.2 fun d hd ↦ (hrest d hd).2, h]
      rfl

theorem ofText_of_scans (h : Scans cs ts) (hne : ts ≠ []) : ofText cs = .ok ts := by
  rw [ofText, h 0]
  cases ts with
  | nil => exact absurd rfl hne
  | cons t ts => rfl

/-! ## What is scanned -/

theorem isLegible_ofSign? {t : Token} (h : ofSign? c = some t) : t.IsLegible := by
  unfold ofSign? at h
  split at h <;> cases h <;> trivial

theorem exists_of_map_cons_eq_ok {t : Token} {ts : List Token}
    {r : Except SyntaxError (List Token)} (h : (t :: ·) <$> r = .ok ts) :
    ∃ ts', r = .ok ts' ∧ ts = t :: ts' := by
  cases r with
  | error err => cases h
  | ok ts' =>
      cases h
      exact ⟨ts', rfl, rfl⟩

theorem isLegible_of_scan (h : scan offset cs = .ok ts) :
    ∀ t ∈ ts, t.IsLegible := by
  fun_induction scan offset cs generalizing ts
  case case1 =>
    cases h
    exact List.forall_mem_nil _
  case case2 ih => exact ih h
  case case3 hsign ih =>
    obtain ⟨ts, hts, rfl⟩ := exists_of_map_cons_eq_ok h
    exact List.forall_mem_cons.mpr ⟨isLegible_ofSign? hsign, ih hts⟩
  case case4 hnumeral literal v hv ih =>
    obtain ⟨ts, hts, rfl⟩ := exists_of_map_cons_eq_ok h
    exact List.forall_mem_cons.mpr
      ⟨Decimal.finite_or_infinite_of_read? (isNumeral_iff.mp hnumeral) hv, ih hts⟩
  case case5 => cases h
  case case6 c cs hblank hsign hnumeral hname word ih =>
    obtain ⟨ts, hts, rfl⟩ := exists_of_map_cons_eq_ok h
    refine List.forall_mem_cons.mpr ⟨?_, ih hts⟩
    have htake : (cs.takeWhile isNameChar).all isNameChar = true := List.all_takeWhile
    simp [IsLegible, word, isName, hname, htake]
  case case7 => cases h

end Token

end CurveSearch.Expr
