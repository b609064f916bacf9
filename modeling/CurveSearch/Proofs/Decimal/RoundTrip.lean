import CurveSearch.Decimal.Plain
import CurveSearch.Decimal.Reading
import CurveSearch.Proofs.Binary64.Bits
import CurveSearch.Proofs.Decimal.Interval

/-!
# Plain text reads back

A finite double with a clear sign bit is written as digits with at most one point, and reading them
gives the double back: the digits spell a decimal of its rounding interval, and the nearest double
of such a decimal is the one that was written. Every numeral of digits and points reads as a double
with a clear sign bit that is not a NaN.
-/

namespace CurveSearch.Decimal

open Grid Binary64

/-! ## Digits -/

theorem ofDigits_eq_ofDigitChars (cs : List Char) : ofDigits cs = Nat.ofDigitChars 10 cs 0 :=
  Nat.ofDigitChars_eq_foldl.symm

theorem ofDigits_append (cs ds : List Char) :
    ofDigits (cs ++ ds) = 10 ^ ds.length * ofDigits cs + ofDigits ds := by
  simp only [ofDigits_eq_ofDigitChars]
  rw [Nat.ofDigitChars_append, Nat.ofDigitChars_eq_ofDigitChars_zero]

theorem ofDigits_replicate_zero (n : ℕ) : ofDigits (List.replicate n '0') = 0 := by
  rw [ofDigits_eq_ofDigitChars, Nat.ofDigitChars_replicate_zero, Nat.mul_zero]

theorem ofDigits_digits (d : Decimal) : ofDigits d.digits = d.coefficient := by
  rw [ofDigits_eq_ofDigitChars]
  exact Nat.ofDigitChars_ten_toDigits

theorem digits_ne_nil (d : Decimal) : d.digits ≠ [] := Nat.toDigits_ne_nil

theorem isDigit_of_mem_digits {d : Decimal} {c : Char} (h : c ∈ d.digits) : c.isDigit = true :=
  Nat.isDigit_of_mem_toDigits (by decide) (by decide) h

/-- What the positional digits of a decimal are. -/
structure IsPositional (d : Decimal) (whole fraction : List Char) : Prop where
  whole_ne_nil : whole ≠ []
  isDigit : ∀ c ∈ whole ++ fraction, c.isDigit = true
  value_eq : (ofDigits (whole ++ fraction) : ℚ) * 10 ^ (-(fraction.length : ℤ)) =
    d.coefficient * 10 ^ d.exponent

theorem isPositional_positional (d : Decimal) :
    IsPositional d d.positional.1 d.positional.2 := by
  unfold positional
  simp only
  split_ifs with hexp hplaces
  · refine ⟨by simp [digits_ne_nil], ?_, ?_⟩
    · intro c hc
      simp only [List.append_nil, List.mem_append, List.mem_replicate] at hc
      rcases hc with hc | ⟨-, rfl⟩
      · exact isDigit_of_mem_digits hc
      · rfl
    · rw [List.append_nil, ofDigits_append, ofDigits_replicate_zero, ofDigits_digits,
        List.length_replicate]
      have hpow : (10 : ℚ) ^ d.exponent = 10 ^ d.exponent.toNat := by
        rw [← zpow_natCast, Int.toNat_of_nonneg hexp]
      rw [hpow]
      simp [mul_comm]
  · have hlength : (d.digits.drop (d.digits.length - (-d.exponent).toNat)).length =
        (-d.exponent).toNat := by
      rw [List.length_drop]
      omega
    rw [List.splitAt_eq]
    refine ⟨?_, ?_, ?_⟩
    · rw [ne_eq, ← List.length_eq_zero_iff, List.length_take]
      omega
    · rw [List.take_append_drop]
      intro c hc
      exact isDigit_of_mem_digits hc
    · rw [List.take_append_drop, ofDigits_digits, hlength]
      congr 2
      omega
  · refine ⟨by simp, ?_, ?_⟩
    · intro c hc
      simp only [List.mem_append, List.mem_singleton, List.mem_replicate] at hc
      rcases hc with rfl | ⟨-, rfl⟩ | hc
      · rfl
      · rfl
      · exact isDigit_of_mem_digits hc
    · have hlength : (List.replicate ((-d.exponent).toNat - d.digits.length) '0' ++
          d.digits).length = (-d.exponent).toNat := by
        rw [List.length_append, List.length_replicate]
        omega
      rw [ofDigits_append ['0'], ofDigits_append, ofDigits_replicate_zero, ofDigits_digits, hlength]
      have hzero : ofDigits ['0'] = 0 := rfl
      have hexp' : -((-d.exponent).toNat : ℤ) = d.exponent := by omega
      rw [hzero, hexp']
      simp

/-! ## Reading digits -/

theorem readMagnitude?_joinPoint {whole fraction : List Char} (hne : whole ≠ [])
    (h : ∀ c ∈ whole ++ fraction, c.isDigit = true) :
    readMagnitude? (joinPoint (whole, fraction)) =
      some (nearestBits (ofDigits (whole ++ fraction)) (whole.length + fraction.length)
        (-(fraction.length : ℤ))) := by
  have hwhole : ∀ c ∈ whole, c.isDigit = true := by
    intro c hc
    exact h c (List.mem_append_left _ hc)
  have hfraction : ∀ c ∈ fraction, c.isDigit = true := by
    intro c hc
    exact h c (List.mem_append_right _ hc)
  cases fraction with
  | nil =>
      have htake : whole.takeWhile Char.isDigit = whole := List.takeWhile_eq_self_iff.mpr hwhole
      have hdrop : whole.dropWhile Char.isDigit = [] := List.dropWhile_eq_nil_iff.mpr hwhole
      simp [joinPoint, readMagnitude?, htake, hdrop, hne, readExponent?, guard]
  | cons c cs =>
      have htake : (whole ++ '.' :: c :: cs).takeWhile Char.isDigit = whole := by
        rw [List.takeWhile_append_of_pos hwhole]
        simp
      have hdrop : (whole ++ '.' :: c :: cs).dropWhile Char.isDigit = '.' :: c :: cs := by
        rw [List.dropWhile_append_of_pos hwhole]
        rfl
      have htake' : (c :: cs).takeWhile Char.isDigit = c :: cs :=
        List.takeWhile_eq_self_iff.mpr hfraction
      have hdrop' : (c :: cs).dropWhile Char.isDigit = [] :=
        List.dropWhile_eq_nil_iff.mpr hfraction
      simp only [joinPoint, readMagnitude?, htake, hdrop, htake', hdrop']
      simp [readExponent?, guard]

/-- A text that starts with a digit or a point is neither signed nor a word. -/
theorem read?_of_numeral {c : Char} {cs : List Char} (h : c.isDigit = true ∨ c = '.') :
    read? (c :: cs) = (readMagnitude? (c :: cs)).map (ofMagnitude false) := by
  obtain ⟨hminus, hplus, hi, hn⟩ : c ≠ '-' ∧ c ≠ '+' ∧ c ≠ 'i' ∧ c ≠ 'n' := by
    refine ⟨?_, ?_, ?_, ?_⟩ <;> rintro rfl <;> revert h <;> decide
  have hlower : c.toLower = c := by
    have hrange : ¬ ('A'.val ≤ c.val ∧ c.val ≤ 'Z'.val) := by
      rcases h with h | rfl
      · simp only [Char.isDigit, Bool.and_eq_true, decide_eq_true_eq] at h
        intro hupper
        exact absurd (UInt32.le_trans hupper.1 h.2) (by decide)
      · decide
    unfold Char.toLower
    rw [dif_neg hrange]
  have hword : readWord? (c :: cs) = none := by simp [readWord?, hlower, hi, hn]
  simp [read?, hword, hminus, hplus]

theorem nearestBits_le (n count : ℕ) (e : ℤ) : nearestBits n count e ≤ infinityBits := by
  unfold nearestBits Binary64.nearest
  simp only
  split_ifs
  · exact Nat.zero_le _
  · exact le_rfl
  · exact Nat.zero_le _
  · exact Nat.zero_le _
  · exact Nat.min_le_left _ _

/-- A numeral of digits and points has a clear sign bit and is not a NaN. -/
theorem exists_magnitude_of_read? {c : Char} {cs : List Char} {v : Float}
    (h : c.isDigit = true ∨ c = '.') (hv : read? (c :: cs) = some v) :
    ∃ bits ≤ infinityBits, v = ofMagnitude false bits := by
  rw [read?_of_numeral h] at hv
  obtain ⟨bits, hbits, rfl⟩ := Option.map_eq_some_iff.mp hv
  refine ⟨bits, ?_, rfl⟩
  obtain ⟨-, -, hbits⟩ := Option.bind_eq_some_iff.mp hbits
  obtain ⟨e, -, hbits⟩ := Option.bind_eq_some_iff.mp hbits
  rw [← Option.some.inj hbits]
  exact nearestBits_le _ _ _

/-! ## The round trip -/

theorem nearestBits_of_names {n count places bits : ℕ} (hbits : bits < infinityBits)
    (hm : 0 < significand bits) (hcount : places ≤ count)
    (h : Names (significand bits) (Binary64.exponent bits) (n * 10 ^ (-(places : ℤ)))) :
    nearestBits n count (-(places : ℤ)) = bits := by
  have hn : 0 < n := by
    rcases Nat.eq_zero_or_pos n with rfl | hpos
    · have hzero := h.pos hm
      simp at hzero
    · exact hpos
  unfold nearestBits
  rw [if_neg hn.ne', if_neg (by omega), if_neg (by omega)]
  apply nearest_of_round_eq _ _ hbits
  · have hround := h.round_eq hm (significand_lt bits) (neg_1074_le_exponent bits)
      (exponent_eq_or_le_significand bits)
    rw [← hround]
    congr 1
    simp [div_eq_mul_inv]
  · simpa using hn
  · exact Nat.pow_pos (by decide)

theorem shortest_zero (tie : Tie) (q : ℤ) : shortest tie 0 q = ⟨0, 0⟩ := if_pos rfl

theorem IsPositional.nearestBits_eq {whole fraction : List Char} {bits : ℕ}
    (hbits : bits < infinityBits)
    (h : IsPositional (shortest .up (significand bits) (Binary64.exponent bits)) whole fraction) :
    nearestBits (ofDigits (whole ++ fraction)) (whole.length + fraction.length)
      (-(fraction.length : ℤ)) = bits := by
  rcases Nat.eq_zero_or_pos (significand bits) with hm | hm
  · have hzero : bits = 0 := by
      unfold significand at hm
      rw [Nat.pow_eq] at hm
      by_cases hlt : bits < 2 ^ 52
      · rwa [if_pos hlt] at hm
      · rw [if_neg hlt] at hm
        omega
    have hvalue := h.value_eq
    rw [hm, shortest_zero, Nat.cast_zero, zero_mul] at hvalue
    have hn : ofDigits (whole ++ fraction) = 0 := by
      rcases mul_eq_zero.mp hvalue with hcast | hpow
      · exact_mod_cast hcast
      · exact absurd hpow (zpow_pos (by norm_num) _).ne'
    rw [hn, hzero]
    exact if_pos rfl
  · apply nearestBits_of_names hbits hm (Nat.le_add_left _ _)
    rw [h.value_eq]
    exact Names.of_shortest .up hm _

theorem isDigit_or_eq_point_of_mem_joinPoint {whole fraction : List Char}
    (h : ∀ c ∈ whole ++ fraction, c.isDigit = true) :
    ∀ c ∈ joinPoint (whole, fraction), c.isDigit = true ∨ c = '.' := by
  intro c hc
  cases fraction with
  | nil => exact .inl (h c (List.mem_append_left _ hc))
  | cons d ds =>
      rcases List.mem_append.mp hc with hc | hc
      · exact .inl (h c (List.mem_append_left _ hc))
      · rcases List.mem_cons.mp hc with rfl | hc
        · exact .inr rfl
        · exact .inl (h c (List.mem_append_right _ hc))

theorem exists_joinPoint_eq_cons (c : Char) (cs fraction : List Char) :
    ∃ rest, joinPoint (c :: cs, fraction) = c :: rest := by
  cases fraction with
  | nil => exact ⟨cs, rfl⟩
  | cons d ds => exact ⟨cs ++ '.' :: d :: ds, rfl⟩

/-- The text of a double: digits with at most one point, first a digit. -/
structure IsNumeral (text : List Char) : Prop where
  chars : ∀ c ∈ text, c.isDigit = true ∨ c = '.'
  head : ∃ c rest, text = c :: rest ∧ c.isDigit = true

theorem read?_plain {x : Float} (hfinite : x.isFinite) (hsign : isSignMinus x = false) :
    IsNumeral (plain x) ∧ read? (plain x) = some x := by
  obtain ⟨bits, hdef⟩ : ∃ bits, bits = magnitude x := ⟨_, rfl⟩
  have hbits : bits < infinityBits := by
    rw [hdef]
    exact (magnitude_lt_iff x).mp hfinite
  have hx : ofMagnitude false bits = x := by
    rw [hdef]
    exact ofMagnitude_magnitude hsign
  obtain ⟨d, hd⟩ : ∃ d, d = shortest .up (significand bits) (Binary64.exponent bits) := ⟨_, rfl⟩
  have hplain : plain x = joinPoint (d.positional.1, d.positional.2) := by
    have hshape : shape x = .finite false (significand bits) (Binary64.exponent bits) := by
      unfold shape
      simp only [← hdef, hsign]
      rw [if_pos hbits]
    rw [plain, hshape, hd]
    rfl
  have hpos := isPositional_positional d
  have hread : readMagnitude? (plain x) = some bits := by
    rw [hplain, readMagnitude?_joinPoint hpos.whole_ne_nil hpos.isDigit]
    rw [hd] at hpos ⊢
    exact congrArg some (hpos.nearestBits_eq hbits)
  obtain ⟨c, cs, hcons⟩ := List.exists_cons_of_ne_nil hpos.whole_ne_nil
  have hc : c.isDigit = true := hpos.isDigit c (by simp [hcons])
  obtain ⟨rest, hrest⟩ := exists_joinPoint_eq_cons c cs d.positional.2
  have hhead : plain x = c :: rest := by rw [hplain, hcons, hrest]
  constructor
  · refine ⟨?_, c, rest, hhead, hc⟩
    rw [hplain]
    exact isDigit_or_eq_point_of_mem_joinPoint hpos.isDigit
  · rw [hhead] at hread ⊢
    rw [read?_of_numeral (.inl hc), hread, ← hx]
    rfl

/-! ## Literals -/

theorem infinity_eq_ofMagnitude : infinity = ofMagnitude false infinityBits := by
  have hbits : (if false = true then infinityBits + Nat.pow 2 63 else infinityBits) =
      0x7ff0000000000000 := if_neg Bool.false_ne_true
  rw [ofMagnitude, hbits]
  rfl

/-- What a literal can stand for: a finite double with a clear sign bit, or infinity. -/
theorem finite_or_infinite_of_read? {c : Char} {cs : List Char} {v : Float}
    (h : c.isDigit = true ∨ c = '.') (hv : read? (c :: cs) = some v) :
    v.isFinite = true ∧ isSignMinus v = false ∨ v = infinity := by
  obtain ⟨bits, hle, rfl⟩ := exists_magnitude_of_read? h hv
  rcases hle.lt_or_eq with hlt | rfl
  · refine .inl ⟨?_, isSignMinus_ofMagnitude hle⟩
    rwa [magnitude_lt_iff, magnitude_ofMagnitude hle]
  · exact .inr infinity_eq_ofMagnitude.symm

theorem plain_infinity : plain infinity = ['i', 'n', 'f'] := by
  have hshape : shape infinity = .infinite false := by
    unfold shape
    simp only
    rw [infinity_eq_ofMagnitude, magnitude_ofMagnitude le_rfl, isSignMinus_ofMagnitude le_rfl,
      if_neg (lt_irrefl _), if_pos rfl]
  rw [plain, hshape]
  rfl

end CurveSearch.Decimal
