import CurveSearch.Json.Bytes
import CurveSearch.Proofs.Json.Strings

/-!
# Reading bytes

The bytes of a text are read as that text. The first byte that belongs to no character is read as a
stray one: between quotes it may stand wherever a plain character may, and what stands between these
quotes then spells no text.
-/

namespace CurveSearch.Json

/-- The bytes of characters are read one character after the other. -/
theorem readFrom_append (before : ByteArray) (cs : List Char) (after : ByteArray) (read : String) :
    readFrom (before ++ (cs.utf8Encode ++ after)) before.size read =
      readFrom (before ++ (cs.utf8Encode ++ after)) (before.size + cs.utf8Encode.size)
        (read ++ String.ofList cs) := by
  induction cs generalizing before read with
  | nil => simp
  | cons c cs ih =>
      have hsize : [c].utf8Encode.size = c.utf8Size := by
        simp [List.utf8Encode_singleton]
      have hcons : (c :: cs).utf8Encode = [c].utf8Encode ++ cs.utf8Encode := List.utf8Encode_cons
      have hdecode : (before ++ ([c].utf8Encode ++ (cs.utf8Encode ++ after))).utf8DecodeChar?
          before.size = some c := by
        rw [ByteArray.utf8DecodeChar?_eq_utf8DecodeChar?_extract,
          ByteArray.extract_append_eq_right rfl (ByteArray.size_append ..),
          List.utf8DecodeChar?_utf8Encode_singleton_append]
      have hlt := ByteArray.lt_size_of_isSome_utf8DecodeChar? (Option.isSome_of_eq_some hdecode)
      have ih := ih (before ++ [c].utf8Encode) (read.push c)
      rw [ByteArray.append_assoc, ByteArray.size_append, hsize] at ih
      rw [hcons, ByteArray.size_append, hsize, ByteArray.append_assoc, readFrom, if_pos hlt]
      simp only [hdecode]
      rw [ih, String.ofList_cons, String.push_eq_append, String.append_assoc, Nat.add_assoc]

theorem exists_readFrom_eq_append (bytes : ByteArray) (i : ℕ) (read : String) :
    ∃ rest, readFrom bytes i read = read ++ rest := by
  fun_induction readFrom bytes i read with
  | case1 i read _ c _ ih =>
      obtain ⟨rest, ih⟩ := ih
      exact ⟨String.singleton c ++ rest, by rw [ih, String.push_eq_append, String.append_assoc]⟩
  | case2 i read _ _ ih =>
      obtain ⟨rest, ih⟩ := ih
      exact ⟨strayByte ++ rest, by rw [ih, String.append_assoc]⟩
  | case3 i read => exact ⟨"", String.append_empty.symm⟩

/-- The bytes of a text are read as that text. -/
theorem ofBytes_toByteArray (text : String) : ofBytes text.toByteArray = text := by
  have h := readFrom_append ByteArray.empty text.toList ByteArray.empty ""
  rw [ByteArray.empty_append, ByteArray.append_empty, String.utf8Encode_toList,
    String.empty_append, String.ofList_toList] at h
  exact h.trans (by rw [readFrom, if_neg (by simp)])

/-- The first byte that belongs to no character is read as a stray one, after the text before it. -/
theorem exists_ofBytes_eq_append (text : String) {after : ByteArray} (hsize : 0 < after.size)
    (hstray : after.utf8DecodeChar? 0 = none) :
    ∃ rest, ofBytes (text.toByteArray ++ after) = text ++ (strayByte ++ rest) := by
  have h := readFrom_append ByteArray.empty text.toList after ""
  rw [ByteArray.empty_append, String.utf8Encode_toList, String.empty_append,
    String.ofList_toList, ByteArray.size_empty, Nat.zero_add] at h
  have hnone : (text.toByteArray ++ after).utf8DecodeChar? text.toByteArray.size = none := by
    rw [ByteArray.utf8DecodeChar?_eq_utf8DecodeChar?_extract,
      ByteArray.extract_append_eq_right rfl (ByteArray.size_append ..), hstray]
  rw [readFrom.eq_def _ text.toByteArray.size, if_pos (by rw [ByteArray.size_append]; omega)] at h
  simp only [hnone] at h
  obtain ⟨rest, hrest⟩ := exists_readFrom_eq_append (text.toByteArray ++ after)
    (text.toByteArray.size + 1) (text ++ strayByte)
  exact ⟨rest, by rw [ofBytes, h, hrest, String.append_assoc]⟩

theorem stringBody?_strayByte_append (cs : List Char) :
    stringBody? (strayByte.toList ++ cs) =
      (stringBody? cs).map fun (body, rest) ↦ (strayByte.toList ++ body, rest) := by
  change stringBody? ('x' :: '\\' :: 'u' :: 'd' :: '8' :: '0' :: '0' :: 'x' :: cs) = _
  rw [stringBody?_of_plain (by decide) (by decide) (by decide), stringBody?_of_unit rfl,
    stringBody?_of_plain (by decide) (by decide) (by decide)]
  simp only [Option.map_map]
  rfl

theorem IsBody.exists_splitUnits_append {before : List Char} (h : IsBody before) :
    ∃ units, ∀ after, splitUnits (before ++ after) = (splitUnits after).map (units ++ ·) := by
  induction h with
  | nil => exact ⟨[], by simp⟩
  | @plain c _ _ _ hback _ ih =>
      obtain ⟨units, ih⟩ := ih
      refine ⟨.inr c :: units, fun after ↦ ?_⟩
      rw [List.cons_append, splitUnits_of_plain hback, ih, Option.map_map]
      rfl
  | @short e _ he _ ih =>
      obtain ⟨units, ih⟩ := ih
      obtain ⟨c, hc⟩ := Option.isSome_iff_exists.1 he
      refine ⟨.inr c :: units, fun after ↦ ?_⟩
      rw [List.cons_append, List.cons_append, splitUnits_of_short hc, ih, Option.map_map]
      rfl
  | @unit a b c d _ _ _ ih =>
      obtain ⟨units, ih⟩ := ih
      refine ⟨.inl (ofHex [a, b, c, d]) :: units, fun after ↦ ?_⟩
      simp only [List.cons_append]
      rw [splitUnits, ih, Option.map_map]
      rfl

/-- What cannot be joined from a named character on cannot be joined with units in front of it. -/
theorem joinUnits_append_eq_none {c : Char} {units : List (ℕ ⊕ Char)}
    (h : joinUnits (.inr c :: units) = none) (before : List (ℕ ⊕ Char)) :
    joinUnits (before ++ .inr c :: units) = none := by
  fun_induction joinUnits before with
  | case1 => exact h
  | case2 d rest ih =>
      rw [List.cons_append, joinUnits, ih]
      rfl
  | case3 high hhigh low rest hlow _ ih =>
      rw [List.cons_append, List.cons_append, joinUnits]
      simp [hhigh, hlow, ih]
  | case4 high hhigh low rest hlow =>
      rw [List.cons_append, List.cons_append, joinUnits]
      simp [hhigh, hlow]
  | case5 high rest hhigh hrest =>
      -- The next unit is no second one of a pair, whether it is one of `before` or not.
      rcases rest with _ | ⟨low | d, rest⟩
      · simp [joinUnits, hhigh]
      · exact (hrest low rest rfl).elim
      · simp [joinUnits, hhigh]
  | case6 high rest hhigh hlow =>
      rw [List.cons_append, joinUnits_of_not_high hhigh, if_pos hlow]
  | case7 high rest hhigh hlow ih =>
      rw [List.cons_append, joinUnits_of_not_high hhigh, if_neg hlow, ih]
      rfl

/-- A body with a stray byte spells no text. -/
theorem charsOf?_of_strayByte {before : List Char} (h : IsBody before) (after : List Char) :
    charsOf? (before ++ (strayByte.toList ++ after)) = none := by
  obtain ⟨units, hunits⟩ := h.exists_splitUnits_append
  have hstray : splitUnits (strayByte.toList ++ after) =
      (splitUnits after).map fun us ↦ .inr 'x' :: .inl 0xd800 :: .inr 'x' :: us := by
    change splitUnits ('x' :: '\\' :: 'u' :: 'd' :: '8' :: '0' :: '0' :: 'x' :: after) = _
    rw [splitUnits_of_plain (by decide), splitUnits, splitUnits_of_plain (by decide)]
    simp only [Option.map_map]
    rfl
  unfold charsOf?
  rw [hunits, hstray]
  cases splitUnits after with
  | none => rfl
  | some us => exact joinUnits_append_eq_none rfl units

end CurveSearch.Json
