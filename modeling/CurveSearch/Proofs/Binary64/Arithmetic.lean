import CurveSearch.Proofs.Binary64.Position

/-!
# Arithmetic on the rational line

Each operation on finite doubles gives the double nearest to the exact result. That one sentence is
proved here for sums, differences, products, quotients, and numbers taken from integers; what an
infinity does to a sum or a product follows the constructors.
-/

namespace CurveSearch.Grid

open Float.Model Float.Model.UnpackedFloat

/-! ## Exact results of unpacked operations -/

theorem signed_neg (s : Sign) (q : ℚ) : signed (-s) q = -signed s q := by
  cases s
  · exact (neg_neg q).symm
  · rfl

theorem signed_mul (s t : Sign) (q r : ℚ) : signed (s * t) (q * r) = signed s q * signed t r := by
  cases s <;> cases t
  · exact (neg_mul_neg q r).symm
  · exact (neg_mul q r).symm
  · exact (mul_neg q r).symm
  · rfl

theorem signed_div (s t : Sign) (q r : ℚ) : signed (s / t) (q / r) = signed s q / signed t r := by
  cases s <;> cases t
  · exact (neg_div_neg_eq q r).symm
  · exact (neg_div r q).symm
  · exact (div_neg q).symm
  · rfl

theorem cast_apply (s : Sign) (n : ℤ) : (s.apply n : ℚ) = signed s n := by
  cases s
  · exact Int.cast_neg n
  · rfl

theorem value_neg (u : UnpackedFloat) : value u.neg = -value u := by
  cases u with
  | finite s m e hm => exact signed_neg s _
  | _ => exact neg_zero.symm

theorem IsCanonical.neg {u : UnpackedFloat} (h : IsCanonical u) : IsCanonical u.neg := by
  cases u with
  | finite s m e hm => exact h
  | _ => trivial

theorem isFinite_neg (u : UnpackedFloat) : u.neg.isFinite = u.isFinite := by
  cases u <;> rfl

variable {u v : UnpackedFloat}

theorem isRoundOf_value (h : IsCanonical u) (hfin : u.isFinite = true) : IsRoundOf u (value u) :=
  ⟨h.isRounded, hfin, (round_eq_self (onGrid_value h)).symm⟩

theorem cast_decreaseExponent (m : ℕ) {e d : ℤ} (h : d ≤ e) :
    ((decreaseExponent m e d).1 : ℚ) * 2 ^ d = m * 2 ^ e := by
  have hsplit : (2 : ℚ) ^ e = 2 ^ (e - d).toNat * 2 ^ d := by
    rw [← zpow_natCast, ← zpow_add₀ two_ne_zero]
    congr 1
    omega
  rw [hsplit, decreaseExponent, Nat.shiftLeft_eq]
  push_cast
  ring

theorem isRoundOf_add (hu : IsCanonical u) (hv : IsCanonical v) (hfu : u.isFinite = true)
    (hfv : v.isFinite = true) :
    IsRoundOf (UnpackedFloat.add .binary64 u v) (value u + value v) := by
  rcases u with _ | - | s | ⟨s, m, e, hm⟩
  · exact nomatch hfu
  · exact nomatch hfu
  · rw [show value (.zero s) = 0 from rfl, zero_add]
    rcases v with _ | - | t | ⟨t, n, d, hn⟩
    · exact nomatch hfv
    · exact nomatch hfv
    · cases s <;> cases t <;> exact isRoundOf_value trivial rfl
    · exact isRoundOf_value hv hfv
  · rcases v with _ | - | t | ⟨t, n, d, hn⟩
    · exact nomatch hfv
    · exact nomatch hfv
    · rw [show value (.zero t) = 0 from rfl, add_zero]
      exact isRoundOf_value hu hfu
    · have hsum := isRoundOf_normalize
        (s.apply (decreaseExponent m e (min e d)).1 + t.apply (decreaseExponent n d (min e d)).1)
        (min e d) .positive
      have hexact : ((s.apply (decreaseExponent m e (min e d)).1 +
          t.apply (decreaseExponent n d (min e d)).1 : ℤ) : ℚ) * 2 ^ min e d =
          value (.finite s m e hm) + value (.finite t n d hn) := by
        have hm₁ := cast_decreaseExponent m (min_le_left e d)
        have hn₁ := cast_decreaseExponent n (min_le_right e d)
        push_cast [cast_apply]
        rw [value, value, ← hm₁, ← hn₁]
        cases s <;> cases t <;> simp only [signed] <;> ring
      rwa [hexact] at hsum

theorem sub_eq_add_neg_unpacked (u v : UnpackedFloat) :
    UnpackedFloat.sub .binary64 u v = UnpackedFloat.add .binary64 u v.neg := by
  rcases u with _ | - | s | ⟨s, m, e, hm⟩ <;> rcases v with _ | - | t | ⟨t, n, d, hn⟩ <;> try rfl
  cases t <;> simp only [UnpackedFloat.sub, UnpackedFloat.add, UnpackedFloat.neg, Sign.apply] <;>
    simp [Int.sub_eq_add_neg]

/-- The product of two canonical significands does not lie above the last place of the result. -/
theorem add_exponents_le_lastPlace {m n : ℕ} {e d : ℤ} {hm : 0 < m} {hn : 0 < n} {s t : Sign}
    (hu : IsCanonical (.finite s m e hm)) (hv : IsCanonical (.finite t n d hn)) :
    e + d ≤ lastPlace ((m * n : ℕ) * 2 ^ (e + d)) := by
  obtain ⟨-, he, he₁, hm₁⟩ := hu
  obtain ⟨-, hd, hd₁, hn₁⟩ := hv
  by_cases hsmall : e + d ≤ -1074
  · exact hsmall.trans (neg_1074_le_lastPlace _)
  -- One of the significands has fifty-three bits, and so the product has at least as many.
  have hbig : 2 ^ 52 ≤ m * n := by
    rcases hm₁ with rfl | hm₁
    · exact (hn₁.resolve_left (by omega)).trans (Nat.le_mul_of_pos_left n hm)
    · exact hm₁.trans (Nat.le_mul_of_pos_right m hn)
  have hpow : (0 : ℚ) < 2 ^ (e + d) := zpow_pos two_pos _
  have hpos := value_pos (m * n) (e + d) (Nat.mul_pos hm hn)
  have hlog : e + d + 52 ≤ Int.log 2 |((m * n : ℕ) : ℚ) * 2 ^ (e + d)| := by
    rw [abs_of_pos hpos, ← Int.zpow_le_iff_le_log one_lt_two hpos, add_comm,
      zpow_add₀ (by norm_num)]
    refine mul_le_mul_of_nonneg_right ?_ hpow.le
    exact_mod_cast hbig
  unfold lastPlace
  omega

theorem isRoundOf_mul (hu : IsCanonical u) (hv : IsCanonical v) (hfu : u.isFinite = true)
    (hfv : v.isFinite = true) :
    IsRoundOf (UnpackedFloat.mul .binary64 u v) (value u * value v) := by
  rcases u with _ | - | s | ⟨s, m, e, hm⟩
  · exact nomatch hfu
  · exact nomatch hfu
  · rw [show value (.zero s) = 0 from rfl, zero_mul]
    rcases v with _ | - | t | ⟨t, n, d, hn⟩
    · exact nomatch hfv
    · exact nomatch hfv
    · exact isRoundOf_value trivial rfl
    · exact isRoundOf_value trivial rfl
  · rcases v with _ | - | t | ⟨t, n, d, hn⟩
    · exact nomatch hfv
    · exact nomatch hfv
    · rw [show value (.zero t) = 0 from rfl, mul_zero]
      exact isRoundOf_value trivial rfl
    · have hprod := isRoundOf_roundWithAccuracy (s * t) (standsFor_exact (m * n))
        (by exact_mod_cast Nat.mul_pos hm hn) (add_exponents_le_lastPlace hu hv)
      have hexact : signed (s * t) ((m * n : ℕ) * 2 ^ (e + d)) =
          value (.finite s m e hm) * value (.finite t n d hn) := by
        rw [value, value, ← signed_mul, zpow_add₀ two_ne_zero]
        congr 1
        push_cast
        ring
      rwa [hexact] at hprod

/-- The quotient of two canonical significands, with the bits that `divCore` gives it, does not lie
above the last place of the result. -/
theorem targetExponent_le_lastPlace {m n : ℕ} {e d : ℤ} (hm : 0 < m) (hn : 0 < n) :
    Format.binary64.targetExponent (totalExponent m e - totalExponent n d) ≤
      lastPlace ((m : ℚ) * 2 ^ e / (n * 2 ^ d)) := by
  have hm₀ := value_pos m e hm
  have hn₀ := value_pos n d hn
  have hpos := div_pos hm₀ hn₀
  have hlog : (m.log2 : ℤ) + e - (n.log2 + 1 + d) ≤ Int.log 2 |(m : ℚ) * 2 ^ e / (n * 2 ^ d)| := by
    rw [abs_of_pos hpos, ← Int.zpow_le_iff_le_log one_lt_two hpos, le_div_iff₀ hn₀]
    have hm₁ : (2 ^ m.log2 : ℚ) ≤ m := by exact_mod_cast Nat.log2_self_le hm.ne'
    have hn₁ : (n : ℚ) ≤ 2 ^ (n.log2 + 1) := by exact_mod_cast Nat.lt_log2_self.le
    push_cast
    calc (2 : ℚ) ^ ((m.log2 : ℤ) + e - (n.log2 + 1 + d)) * (n * 2 ^ d)
        ≤ 2 ^ ((m.log2 : ℤ) + e - (n.log2 + 1 + d)) * (2 ^ (n.log2 + 1) * 2 ^ d) :=
          mul_le_mul_of_nonneg_left (mul_le_mul_of_nonneg_right hn₁ (zpow_pos two_pos d).le)
            (zpow_pos two_pos _).le
      _ = 2 ^ m.log2 * 2 ^ e := by
          rw [← zpow_natCast, ← zpow_natCast, ← zpow_add₀ two_ne_zero, ← zpow_add₀ two_ne_zero,
            ← zpow_add₀ two_ne_zero]
          congr 1
          push_cast
          ring
      _ ≤ m * 2 ^ e := mul_le_mul_of_nonneg_right hm₁ (zpow_pos two_pos e).le
  rw [binary64_targetExponent, totalExponent, totalExponent]
  unfold lastPlace
  omega

theorem isRoundOf_div (hu : IsCanonical u) (hfu : u.isFinite = true)
    (hfv : v.isFinite = true) (hv : value v ≠ 0) :
    IsRoundOf (UnpackedFloat.div .binary64 u v) (value u / value v) := by
  rcases v with _ | - | t | ⟨t, n, d, hn⟩
  · exact nomatch hfv
  · exact nomatch hfv
  · exact absurd rfl hv
  rcases u with _ | - | s | ⟨s, m, e, hm⟩
  · exact nomatch hfu
  · exact nomatch hfu
  · rw [show value (.zero s) = 0 from rfl, zero_div]
    exact isRoundOf_value trivial rfl
  obtain ⟨c, hc⟩ : ∃ c, c = min (e - d)
      (Format.binary64.targetExponent (totalExponent m e - totalExponent n d)) := ⟨_, rfl⟩
  obtain ⟨k, hk⟩ : ∃ k, k = (e - d - c).toNat := ⟨_, rfl⟩
  have hrem : (m <<< k) % n < n := Nat.mod_lt _ hn
  have hn₀ : (n : ℚ) ≠ 0 := by exact_mod_cast hn.ne'
  -- The significand with its remainder is the exact quotient of the shifted significands.
  have hquot : ((m <<< k / n : ℕ) : ℚ) + ((m <<< k % n : ℕ) : ℚ) / n = m * 2 ^ k / n := by
    rw [eq_div_iff hn₀, add_mul, div_mul_cancel₀ _ hn₀]
    have hdiv : m <<< k / n * n + m <<< k % n = m * 2 ^ k := by
      rw [Nat.div_add_mod', Nat.shiftLeft_eq]
    exact_mod_cast hdiv
  have hexact : (m : ℚ) * 2 ^ k / n * 2 ^ c = m * 2 ^ e / (n * 2 ^ d) := by
    have hsplit : (2 : ℚ) ^ k = 2 ^ e / 2 ^ d / 2 ^ c := by
      rw [← zpow_natCast, ← zpow_sub₀ two_ne_zero, ← zpow_sub₀ two_ne_zero]
      congr 1
      omega
    rw [hsplit]
    have hd := (zpow_pos (two_pos : (0 : ℚ) < 2) d).ne'
    have hc := (zpow_pos (two_pos : (0 : ℚ) < 2) c).ne'
    field_simp
  have hround := isRoundOf_roundWithAccuracy (s / t)
    (hquot ▸ standsFor_fraction (m <<< k / n) hrem)
    (e := c) (by positivity)
    (by
      rw [hexact, hc]
      exact (min_le_right _ _).trans (targetExponent_le_lastPlace hm hn))
  rw [hexact, signed_div] at hround
  rw [hk, hc] at hround
  exact hround

/-! ## Operations on doubles -/

/-- The double nearest to a rational. -/
structure IsNearest (x : Float) (q : ℚ) : Prop where
  isNaN_eq : x.isNaN = false
  position_eq : position x = nearest q

theorem isNearest_of_isRoundOf {q : ℚ} (h : IsRoundOf u q) :
    IsNearest (.ofModel (.pack u)) q := by
  obtain ⟨hround, hfin, hvalue⟩ := h
  have hpos : unpackedPosition u = value u := by
    cases u with
    | infinity s => exact nomatch hfin
    | _ => rfl
  have hnan : u.isNaN = false := by
    cases u with
    | notANumber => exact nomatch hfin
    | _ => rfl
  constructor
  · exact (isNaN_unpack_pack hround).trans hnan
  · rw [nearest, ← hvalue, ← hpos]
    exact unpackedPosition_unpack_pack hround

variable {a b : Float}

theorem position_eq_value (h : a.isFinite) : position a = value a.toModel.unpack := by
  unfold Float.isFinite Float.Model.isFinite at h
  unfold position
  cases hu : a.toModel.unpack with
  | infinity s =>
      rw [hu] at h
      exact nomatch h
  | _ => rfl

theorem isNearest_add (ha : a.isFinite) (hb : b.isFinite) :
    IsNearest (a + b) (position a + position b) := by
  rw [position_eq_value ha, position_eq_value hb]
  exact isNearest_of_isRoundOf
    (isRoundOf_add (isCanonical_unpack_toModel a) (isCanonical_unpack_toModel b) ha hb)

theorem isNearest_sub (ha : a.isFinite) (hb : b.isFinite) :
    IsNearest (a - b) (position a - position b) := by
  have hround := isRoundOf_add (isCanonical_unpack_toModel a) (isCanonical_unpack_toModel b).neg ha
    ((isFinite_neg _).trans hb)
  rw [← sub_eq_add_neg_unpacked, value_neg, ← sub_eq_add_neg] at hround
  rw [position_eq_value ha, position_eq_value hb]
  exact isNearest_of_isRoundOf hround

theorem isNearest_mul (ha : a.isFinite) (hb : b.isFinite) :
    IsNearest (a * b) (position a * position b) := by
  rw [position_eq_value ha, position_eq_value hb]
  exact isNearest_of_isRoundOf
    (isRoundOf_mul (isCanonical_unpack_toModel a) (isCanonical_unpack_toModel b) ha hb)

theorem isNearest_div (ha : a.isFinite) (hb : b.isFinite) (hzero : position b ≠ 0) :
    IsNearest (a / b) (position a / position b) := by
  rw [position_eq_value hb] at hzero
  rw [position_eq_value ha, position_eq_value hb]
  exact isNearest_of_isRoundOf (isRoundOf_div (isCanonical_unpack_toModel a) ha hb hzero)

theorem isNearest_toFloat (n : UInt64) : IsNearest n.toFloat n.toNat := by
  have h := isRoundOf_normalize (n.toNat : ℤ) 0 .positive
  rw [zpow_zero, mul_one, Int.cast_natCast] at h
  exact isNearest_of_isRoundOf h

/-! ## Signs -/

theorem unpack_neg (a : Float) : (-a).toModel.unpack = a.toModel.unpack.neg :=
  unpack_pack_of_isCanonical (isCanonical_unpack_toModel a).neg

theorem unpack_abs (a : Float) : a.abs.toModel.unpack = a.toModel.unpack.abs := by
  refine unpack_pack_of_isCanonical ?_
  have hcanon := isCanonical_unpack_toModel a
  cases hu : a.toModel.unpack with
  | finite s m e hm =>
      rw [hu] at hcanon
      exact hcanon
  | _ => trivial

@[simp] theorem isNaN_neg (a : Float) : (-a).isNaN = a.isNaN := by
  unfold Float.isNaN Float.Model.isNaN
  rw [unpack_neg]
  cases a.toModel.unpack <;> rfl

@[simp] theorem isNaN_abs (a : Float) : a.abs.isNaN = a.isNaN := by
  unfold Float.isNaN Float.Model.isNaN
  rw [unpack_abs]
  cases a.toModel.unpack <;> rfl

@[simp] theorem position_neg (a : Float) : position (-a) = -position a := by
  unfold position
  rw [unpack_neg]
  cases a.toModel.unpack with
  | notANumber => exact neg_zero.symm
  | zero s => exact neg_zero.symm
  | _ => exact signed_neg _ _

@[simp] theorem position_abs (a : Float) : position a.abs = |position a| := by
  unfold position
  rw [unpack_abs]
  cases a.toModel.unpack with
  | notANumber => exact abs_zero.symm
  | zero s => exact abs_zero.symm
  | infinity s =>
      change limit = |signed s limit|
      rw [abs_signed, abs_of_pos limit_pos]
  | finite s m e hm =>
      change (m : ℚ) * 2 ^ e = |signed s (m * 2 ^ e)|
      rw [abs_signed, abs_of_pos (value_pos m e hm)]

@[simp] theorem isFinite_neg_float (a : Float) : (-a).isFinite = a.isFinite := by
  rw [Bool.eq_iff_iff, isFinite_iff, isFinite_iff, isNaN_neg, position_neg, abs_neg]

/-! ## Infinities -/

theorem exists_unpack_eq_infinity (hnan : a.isNaN = false) (h : limit ≤ |position a|) :
    ∃ s, a.toModel.unpack = .infinity s := by
  have hfin : ¬ a.isFinite := fun h' ↦ h.not_gt (abs_position_lt h')
  unfold Float.isNaN Float.Model.isNaN at hnan
  unfold Float.isFinite Float.Model.isFinite at hfin
  cases hu : a.toModel.unpack with
  | infinity s => exact ⟨s, rfl⟩
  | notANumber =>
      rw [hu] at hnan
      exact nomatch hnan
  | _ =>
      rw [hu] at hfin
      exact absurd rfl hfin

theorem add_infinite (ha : a.isFinite) (hb : b.isNaN = false) (h : limit ≤ |position b|) :
    (a + b).isNaN = false ∧ position (a + b) = position b := by
  obtain ⟨s, hs⟩ := exists_unpack_eq_infinity hb h
  have hsum : (a + b).toModel.unpack = .infinity s := by
    change UnpackedFloat.unpack .binary64 (UnpackedFloat.pack .binary64
      (UnpackedFloat.add .binary64 a.toModel.unpack b.toModel.unpack)) = _
    unfold Float.isFinite Float.Model.isFinite at ha
    rw [hs]
    cases hu : a.toModel.unpack with
    | zero t => exact unpack_infinity s
    | finite t m e hm => exact unpack_infinity s
    | _ =>
        rw [hu] at ha
        exact nomatch ha
  constructor
  · unfold Float.isNaN Float.Model.isNaN
    rw [hsum]
    rfl
  · rw [position, position, hsum, hs]

theorem isFinite_unpack_pack (h : u.isFinite = false) :
    (unpack .binary64 (UnpackedFloat.pack .binary64 u)).isFinite = false := by
  cases u with
  | infinity s =>
      change (unpack .binary64 (packedInfinity .binary64 s)).isFinite = false
      rw [unpack_infinity]
      rfl
  | notANumber => rfl
  | _ => exact nomatch h

theorem isFinite_of_add (h : (a + b).isFinite) : a.isFinite ∧ b.isFinite := by
  by_contra hfin
  have hsum : (UnpackedFloat.add .binary64 a.toModel.unpack b.toModel.unpack).isFinite = false := by
    rw [not_and_or, Bool.not_eq_true, Bool.not_eq_true] at hfin
    unfold Float.isFinite Float.Model.isFinite at hfin
    rcases hu : a.toModel.unpack with (_ | _) | - | _ | _ <;>
      rcases hv : b.toModel.unpack with (_ | _) | - | _ | _ <;>
        rw [hu, hv] at hfin <;> first | rfl | simp [UnpackedFloat.isFinite] at hfin
  exact absurd h (by rw [Bool.not_eq_true]; exact isFinite_unpack_pack hsum)

theorem isFinite_of_mul (h : (a * b).isFinite) : a.isFinite ∧ b.isFinite := by
  by_contra hfin
  have hprod :
      (UnpackedFloat.mul .binary64 a.toModel.unpack b.toModel.unpack).isFinite = false := by
    rw [not_and_or, Bool.not_eq_true, Bool.not_eq_true] at hfin
    unfold Float.isFinite Float.Model.isFinite at hfin
    rcases hu : a.toModel.unpack with _ | - | _ | _ <;>
      rcases hv : b.toModel.unpack with _ | - | _ | _ <;>
        rw [hu, hv] at hfin <;> first | rfl | simp [UnpackedFloat.isFinite] at hfin
  exact absurd h (by rw [Bool.not_eq_true]; exact isFinite_unpack_pack hprod)

theorem isFinite_of_div (h : (a / b).isFinite) : a.isFinite := by
  by_contra hfin
  have hquot :
      (UnpackedFloat.div .binary64 a.toModel.unpack b.toModel.unpack).isFinite = false := by
    rw [Bool.not_eq_true] at hfin
    unfold Float.isFinite Float.Model.isFinite at hfin
    rcases hu : a.toModel.unpack with _ | - | _ | _ <;>
      rcases b.toModel.unpack with _ | - | _ | _ <;>
        rw [hu] at hfin <;> first | rfl | simp [UnpackedFloat.isFinite] at hfin
  exact absurd h (by rw [Bool.not_eq_true]; exact isFinite_unpack_pack hquot)

end CurveSearch.Grid
