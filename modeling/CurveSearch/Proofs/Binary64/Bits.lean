import CurveSearch.Proofs.Binary64.Decoding

/-!
# Doubles and their bits

A double is determined by its bits, and all bits occur but those of the other NaNs. So a double with
a clear sign bit is the double of its own magnitude, and every magnitude up to that of infinity is
the one of a double.
-/

namespace CurveSearch.Grid

open Float.Model Float.Model.UnpackedFloat Binary64

/-! ## Packing what was unpacked -/

theorem packComponents_unpack (b : BitVec 64) :
    packComponents .binary64 (Sign.ofBitVec (@unpackSign .binary64 b))
      (@unpackExponent .binary64 b) (@unpackMantissa .binary64 b) = b := by
  have hsign : (Sign.ofBitVec (@unpackSign .binary64 b)).toBitVec = @unpackSign .binary64 b := by
    generalize @unpackSign .binary64 b = s
    revert s
    decide
  unfold packComponents
  rw [hsign]
  change b.extractLsb' 63 1 ++ b.extractLsb' 52 11 ++ b.extractLsb' 0 52 = b
  rw [BitVec.extractLsb'_append_extractLsb'_eq_extractLsb' (by rfl),
    BitVec.extractLsb'_append_extractLsb'_eq_extractLsb' (by rfl)]
  exact BitVec.extractLsb'_eq_self

/-- The fields of a double that was unpacked by one of the cases. -/
theorem packComponents_eq_self {b : BitVec 64} {e : BitVec 11} {m : BitVec 52}
    (he : @unpackExponent .binary64 b = e) (hm : @unpackMantissa .binary64 b = m) :
    packComponents .binary64 (Sign.ofBitVec (@unpackSign .binary64 b)) e m = b := by
  subst he hm
  exact packComponents_unpack b

theorem pack_unpack {b : BitVec 64} (h : Format.binary64.Valid b) :
    UnpackedFloat.pack .binary64 (unpack .binary64 b) = b := by
  have hmant := (@unpackMantissa .binary64 b).isLt
  have hexp := (@unpackExponent .binary64 b).isLt
  change _ < 2 ^ 52 at hmant
  change _ < 2 ^ 11 at hexp
  unfold UnpackedFloat.unpack
  simp only
  split_ifs with hinf hm hzero hm
  · exact packComponents_eq_self hinf hm
  · exact (h.eq_packedNaN hinf hm).symm
  · exact packComponents_eq_self hzero hm
  · have hpos : 0 < (@unpackMantissa .binary64 b).toNat := by
      simpa [BitVec.toNat_pos, BitVec.pos_iff_ne_zero] using hm
    have hlog : (@unpackMantissa .binary64 b).toNat.log2 ≠ 52 := by
      have := (Nat.log2_lt hpos.ne').mpr hmant
      omega
    refine (pack_finite (b := 1) _ hpos ?_).trans ?_
    · rw [hzero]
      rfl
    · rw [if_neg (by decide), if_neg hlog]
      refine packComponents_eq_self hzero ?_
      rw [BitVec.ofNat_toNat, BitVec.setWidth_eq]
  · -- The biased exponent is the field itself, and the implied bit makes fifty-three.
    have hlow : (@unpackExponent .binary64 b).toNat ≠ 0 := by
      rwa [← BitVec.toNat_inj] at hzero
    have hhigh : (@unpackExponent .binary64 b).toNat ≠ 2047 := by
      rwa [← BitVec.toNat_inj] at hinf
    have hlog : (1#1 ++ @unpackMantissa .binary64 b).toNat.log2 = 52 := by
      rw [toNat_implicit_append, Nat.log2_eq_iff (by omega)]
      omega
    refine (pack_finite (b := (@unpackExponent .binary64 b).toNat) _ _ ?_).trans ?_
    · change (_ : ℤ) = (_ : ℤ) - 1075 + 1075
      omega
    · rw [if_neg (by omega), if_pos hlog]
      refine packComponents_eq_self ?_ ?_
      · rw [BitVec.ofNat_toNat, BitVec.setWidth_eq]
      · apply BitVec.eq_of_toNat_eq
        rw [toNat_implicit_append]
        change _ = (2 ^ 52 + (@unpackMantissa .binary64 b).toNat) % 2 ^ 52
        omega

theorem valid_of_toNat_le {b : BitVec 64} (h : b.toNat ≤ infinityBits) :
    Format.binary64.Valid b := by
  refine ⟨fun hexp hmant ↦ absurd ?_ hmant⟩
  rw [unpackExponent_eq_full] at hexp
  rw [← BitVec.toNat_inj, toNat_unpackMantissa]
  unfold infinityBits at h
  change _ = 0
  omega

/-! ## Doubles with a clear sign bit -/

theorem ofBits_toBits (x : Float) : Float.ofBits x.toBits = x := by
  obtain ⟨⟨bits, hvalid⟩⟩ := x
  have hpack : UInt64.ofBitVec _ = bits := congrArg UInt64.ofBitVec (pack_unpack hvalid)
  refine congrArg Float.ofModel ?_
  change Float.Model.mk (UInt64.ofBitVec _) _ = _
  congr 1

theorem toBits_ofBits {bits : UInt64} (h : Format.binary64.Valid bits.toBitVec) :
    (Float.ofBits bits).toBits = bits :=
  congrArg UInt64.ofBitVec (pack_unpack h)

theorem ofMagnitude_magnitude {x : Float} (h : isSignMinus x = false) :
    ofMagnitude false (magnitude x) = x := by
  have hlt : x.toBits.toNat < 2 ^ 63 := by simpa [isSignMinus] using h
  have hmag : magnitude x = x.toBits.toNat := Nat.mod_eq_of_lt hlt
  rw [ofMagnitude, if_neg (by decide), hmag, UInt64.ofNat_toNat, ofBits_toBits]

theorem toNat_toBits_ofMagnitude {bits : ℕ} (h : bits ≤ infinityBits) :
    (ofMagnitude false bits).toBits.toNat = bits := by
  have hlt : bits < 2 ^ 64 := h.trans_lt (by decide)
  have hbits : (UInt64.ofNat bits).toNat = bits := UInt64.toNat_ofNat_of_lt' hlt
  rw [ofMagnitude, if_neg (by decide), toBits_ofBits (valid_of_toNat_le (hbits.trans_le h)), hbits]

theorem isSignMinus_ofMagnitude {bits : ℕ} (h : bits ≤ infinityBits) :
    isSignMinus (ofMagnitude false bits) = false := by
  rw [isSignMinus, toNat_toBits_ofMagnitude h, decide_eq_false_iff_not, not_le]
  exact h.trans_lt (by decide)

theorem magnitude_ofMagnitude {bits : ℕ} (h : bits ≤ infinityBits) :
    magnitude (ofMagnitude false bits) = bits := by
  rw [magnitude, toNat_toBits_ofMagnitude h]
  exact Nat.mod_eq_of_lt (h.trans_lt (by decide))

end CurveSearch.Grid
