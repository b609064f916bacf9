import CurveSearch.Proofs.Binary64.Rounded

/-!
# Packing

A double is kept as sixty-four bits, and every operation unpacks its operands and packs its result.
Packing keeps a rounded result unless its exponent is too large, in which case it becomes the
infinity of its sign. Read on the rational line, with the infinities at `± limit`, packing is
therefore the cut of the line.
-/

namespace CurveSearch.Grid

open Float.Model Float.Model.UnpackedFloat

/-- Where an unpacked double lies on the rational line. What is not a number lies at zero. -/
def unpackedPosition : UnpackedFloat → ℚ
  | .infinity s => signed s limit
  | u => value u

/-- What unpacking gives: a rounded double whose exponent is not too large. -/
def IsCanonical : UnpackedFloat → Prop
  | .finite _ m e _ => m < 2 ^ 53 ∧ -1074 ≤ e ∧ e ≤ 971 ∧ (e = -1074 ∨ 2 ^ 52 ≤ m)
  | _ => True

theorem IsCanonical.isRounded {u : UnpackedFloat} (h : IsCanonical u) : IsRounded u := by
  cases u with
  | finite s m e hm => exact ⟨h.1, h.2.1, h.2.2.2⟩
  | _ => trivial

/-! ## The fields of a packed double -/

theorem ofBitVec_unpackSign_packComponents (s : Sign) (e : BitVec 11) (m : BitVec 52) :
    Sign.ofBitVec (unpackSign (packComponents .binary64 s e m)) = s := by
  have hsign : unpackSign (packComponents .binary64 s e m) = s.toBitVec := by
    change (s.toBitVec ++ e ++ m).extractLsb' 63 1 = s.toBitVec
    rw [BitVec.extractLsb'_append_eq_of_le (by decide),
      BitVec.extractLsb'_append_eq_of_le (by decide)]
    simp
  rw [hsign]
  cases s <;> rfl

theorem toNat_implicit_append (m : BitVec 52) : (1#1 ++ m).toNat = 2 ^ 52 + m.toNat := by
  rw [BitVec.toNat_append, ← Nat.shiftLeft_add_eq_or_of_lt m.isLt]
  rfl

theorem unpack_infinity (s : Sign) :
    unpack .binary64 (packedInfinity .binary64 s) = .infinity s := by
  cases s <;> rfl

theorem unpack_packComponents_normal (s : Sign) {e : BitVec 11} {m : BitVec 52}
    (hinf : e ≠ -1#_) (hzero : e ≠ 0#_) :
    ∃ h, unpack .binary64 (packComponents .binary64 s e m) =
      .finite s (2 ^ 52 + m.toNat) (e.toNat - 1075) h := by
  refine ⟨by positivity, ?_⟩
  unfold UnpackedFloat.unpack
  simp only [unpackExponent_packComponents, unpackMantissa_packComponents,
    ofBitVec_unpackSign_packComponents, hinf, hzero, if_false, toNat_implicit_append]
  rfl

theorem unpack_packComponents_subnormal (s : Sign) {m : BitVec 52} (hm : m ≠ 0#_) :
    ∃ h, unpack .binary64 (packComponents .binary64 s 0#_ m) = .finite s m.toNat (-1074) h := by
  refine ⟨by simpa [BitVec.toNat_pos, BitVec.pos_iff_ne_zero] using hm, ?_⟩
  unfold UnpackedFloat.unpack
  simp only [unpackExponent_packComponents, unpackMantissa_packComponents,
    ofBitVec_unpackSign_packComponents, hm]
  rfl

/-! ## Packing and unpacking -/

theorem pack_finite (s : Sign) {m : ℕ} (hm : 0 < m) {e : ℤ} {b : ℕ} (hb : (b : ℤ) = e + 1075) :
    UnpackedFloat.pack .binary64 (.finite s m e hm) =
      if 2047 ≤ b then packedInfinity .binary64 s
      else if m.log2 = 52 then packComponents .binary64 s (BitVec.ofNat 11 b) (BitVec.ofNat 52 m)
      else packComponents .binary64 s 0#_ (BitVec.ofNat 52 m) := by
  have hbias : (e + (1023 : ℕ) + (52 : ℕ)).toNat = b := by omega
  have hbig : (2 ^ 11 ≤ b + 1) = (2047 ≤ b) := propext (by omega)
  have hlog : (m.log2 + 1 = 53) = (m.log2 = 52) := propext (by omega)
  change (if 2 ^ 11 ≤ (e + (1023 : ℕ) + (52 : ℕ)).toNat + 1 then _ else
    if m.log2 + 1 = 53 then packComponents .binary64 s
      (BitVec.ofNat 11 (e + (1023 : ℕ) + (52 : ℕ)).toNat) _ else _) = _
  simp only [hbias, hbig, hlog]

theorem unpack_pack_of_isCanonical {u : UnpackedFloat} (h : IsCanonical u) :
    unpack .binary64 (UnpackedFloat.pack .binary64 u) = u := by
  cases u with
  | infinity s => exact unpack_infinity s
  | notANumber => rfl
  | zero s => cases s <;> rfl
  | finite s m e hm =>
      obtain ⟨hm₁, he₀, he₁, hm₀⟩ := h
      obtain ⟨b, hb⟩ : ∃ b : ℕ, (b : ℤ) = e + 1075 := ⟨(e + 1075).toNat, by omega⟩
      rw [pack_finite s hm hb, if_neg (by omega)]
      -- The implied bit is set exactly when the significand has fifty-three bits.
      have hlog : m.log2 = 52 ↔ 2 ^ 52 ≤ m := by
        have hlt := (Nat.log2_lt hm.ne').mpr hm₁
        have hle := Nat.le_log2 hm.ne' (k := 52)
        omega
      split_ifs with hnormal <;> rw [hlog] at hnormal
      · have hbit : (BitVec.ofNat 11 b).toNat = b := Nat.mod_eq_of_lt (by omega)
        have hmant : (BitVec.ofNat 52 m).toNat = m - 2 ^ 52 := by
          rw [BitVec.toNat_ofNat]
          omega
        have hinf : BitVec.ofNat 11 b ≠ -1#_ := by
          rw [← BitVec.toNat_inj.ne, hbit]
          change b ≠ 2047
          omega
        have hzero : BitVec.ofNat 11 b ≠ 0#_ := by
          rw [← BitVec.toNat_inj.ne, hbit]
          change b ≠ 0
          omega
        obtain ⟨_, hunpack⟩ := unpack_packComponents_normal s (m := BitVec.ofNat 52 m) hinf hzero
        rw [hunpack]
        simp only [hmant, hbit, UnpackedFloat.finite.injEq]
        exact ⟨trivial, by omega, by omega⟩
      · have hmant : (BitVec.ofNat 52 m).toNat = m := Nat.mod_eq_of_lt (by omega)
        have hzero : BitVec.ofNat 52 m ≠ 0#_ := by
          rw [← BitVec.toNat_inj.ne, hmant]
          exact hm.ne'
        obtain ⟨_, hunpack⟩ := unpack_packComponents_subnormal s hzero
        rw [hunpack]
        simp only [hmant, UnpackedFloat.finite.injEq]
        exact ⟨trivial, trivial, by omega⟩

theorem isCanonical_unpack (b : BitVec 64) : IsCanonical (unpack .binary64 b) := by
  unfold UnpackedFloat.unpack
  simp only
  split_ifs with hinf hmant hzero hmant'
  · trivial
  · trivial
  · trivial
  · refine ⟨(@unpackMantissa .binary64 b).isLt.trans (by norm_num), ?_⟩
    have hexp : (@unpackExponent .binary64 b).toNat = 0 := by rw [hzero]; rfl
    simp only [hexp]
    exact ⟨by decide, by decide, .inl (by decide)⟩
  · have hlow : (@unpackExponent .binary64 b).toNat ≠ 0 := by
      rwa [← BitVec.toNat_inj] at hzero
    have hhigh : (@unpackExponent .binary64 b).toNat ≠ 2047 := by
      rwa [← BitVec.toNat_inj] at hinf
    have hexp : (@unpackExponent .binary64 b).toNat < 2 ^ 11 :=
      (@unpackExponent .binary64 b).isLt
    have hmant := (@unpackMantissa .binary64 b).isLt
    rw [IsCanonical, toNat_implicit_append]
    change _ ∧ -1074 ≤ (_ : ℤ) - 1075 ∧ (_ : ℤ) - 1075 ≤ 971 ∧ _
    change _ < 2 ^ 52 at hmant
    exact ⟨by omega, by omega, by omega, .inr (by omega)⟩

theorem onGrid_value {u : UnpackedFloat} (h : IsCanonical u) : OnGrid (value u) := by
  cases u with
  | finite s m e hm =>
      have hfin : OnGrid (m * 2 ^ e) := by
        refine ⟨m, e, ?_, h.2.1, by rw [Int.cast_natCast]⟩
        rw [Nat.abs_cast]
        exact_mod_cast h.1
      cases s
      · exact hfin.neg
      · exact hfin
  | _ => exact onGrid_zero

/-! ## Packing is the cut -/

theorem abs_value_lt_limit {u : UnpackedFloat} (h : IsCanonical u) : |value u| < limit := by
  cases u with
  | finite s m e hm =>
      obtain ⟨hm₁, -, he, -⟩ := h
      have hpow : (0 : ℚ) < 2 ^ e := zpow_pos two_pos e
      rw [value, abs_signed, abs_of_nonneg (by positivity), limit]
      calc (m : ℚ) * 2 ^ e < 2 ^ 53 * 2 ^ e :=
            mul_lt_mul_of_pos_right (by exact_mod_cast hm₁) hpow
        _ ≤ 2 ^ 53 * 2 ^ (971 : ℤ) :=
            mul_le_mul_of_nonneg_left (zpow_le_zpow_right₀ one_le_two he) (by norm_num)
        _ = 2 ^ 1024 := by rw [zpow_ofNat, ← pow_add]
  | _ => simpa [value] using limit_pos

theorem saturate_signed_of_limit_le (s : Sign) {q : ℚ} (h : limit ≤ q) :
    saturate (signed s q) = signed s limit := by
  have hpos : saturate q = limit := by
    rw [saturate, min_eq_left h, max_eq_right (by linarith [limit_pos])]
  cases s <;> simp [signed, saturate_neg, hpos]

/-- A rounded result is kept, or it has become the infinity of its sign. -/
theorem unpack_pack_cases {u : UnpackedFloat} (h : IsRounded u) :
    (IsCanonical u ∧ unpack .binary64 (UnpackedFloat.pack .binary64 u) = u) ∨
    ∃ s q, limit ≤ q ∧ u.isNaN = false ∧ unpackedPosition u = signed s q ∧
      unpack .binary64 (UnpackedFloat.pack .binary64 u) = .infinity s := by
  cases u with
  | finite s m e hm =>
      obtain ⟨hm₁, he₀, hm₀⟩ := h
      rcases le_or_gt e 971 with he | he
      · exact .inl ⟨⟨hm₁, he₀, he, hm₀⟩, unpack_pack_of_isCanonical ⟨hm₁, he₀, he, hm₀⟩⟩
      · refine .inr ⟨s, m * 2 ^ e, ?_, rfl, rfl, ?_⟩
        · have hm₂ : (2 ^ 52 : ℚ) ≤ m := by exact_mod_cast hm₀.resolve_left (by omega)
          calc limit = 2 ^ 52 * 2 ^ (972 : ℤ) := by rw [limit, zpow_ofNat, ← pow_add]
            _ ≤ m * 2 ^ (972 : ℤ) := mul_le_mul_of_nonneg_right hm₂ (zpow_pos two_pos _).le
            _ ≤ m * 2 ^ e :=
                mul_le_mul_of_nonneg_left (zpow_le_zpow_right₀ one_le_two (by omega))
                  (by positivity)
        · obtain ⟨b, hb⟩ : ∃ b : ℕ, (b : ℤ) = e + 1075 := ⟨(e + 1075).toNat, by omega⟩
          rw [pack_finite s hm hb, if_pos (by omega), unpack_infinity]
  | _ => exact .inl ⟨trivial, unpack_pack_of_isCanonical trivial⟩

theorem abs_unpackedPosition_le {u : UnpackedFloat} (h : IsCanonical u) :
    |unpackedPosition u| ≤ limit := by
  cases u with
  | infinity s => rw [unpackedPosition, abs_signed, abs_of_pos limit_pos]
  | finite s m e hm => exact (abs_value_lt_limit h).le
  | _ => simpa [unpackedPosition, value] using limit_pos.le

theorem unpackedPosition_unpack_pack {u : UnpackedFloat} (h : IsRounded u) :
    unpackedPosition (unpack .binary64 (UnpackedFloat.pack .binary64 u)) =
      saturate (unpackedPosition u) := by
  rcases unpack_pack_cases h with ⟨hcanon, heq⟩ | ⟨s, q, hq, -, hpos, heq⟩
  · rw [heq, saturate_of_abs_le (abs_unpackedPosition_le hcanon)]
  · rw [heq, hpos, saturate_signed_of_limit_le s hq]
    rfl

theorem isNaN_unpack_pack {u : UnpackedFloat} (h : IsRounded u) :
    (unpack .binary64 (UnpackedFloat.pack .binary64 u)).isNaN = u.isNaN := by
  rcases unpack_pack_cases h with ⟨-, heq⟩ | ⟨s, q, -, hnan, -, heq⟩
  · rw [heq]
  · rw [heq, hnan]
    rfl

end CurveSearch.Grid
