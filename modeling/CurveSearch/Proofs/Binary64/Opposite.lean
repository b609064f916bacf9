import CurveSearch.Proofs.Binary64.Bits
import CurveSearch.Proofs.Binary64.Monotone

/-!
# Doubles and their opposites

Changing the sign of a double is exact, and so is changing it back. It turns the order around and
commutes with subtraction, so what is computed from opposite numbers is the opposite, bit for bit.
-/

namespace CurveSearch.Grid

open Float.Model Float.Model.UnpackedFloat

variable {a b c x : Float}

theorem eq_of_unpack_eq (h : a.toModel.unpack = b.toModel.unpack) : a = b := by
  have hpack (x : Float) : Float.ofModel (.pack x.toModel.unpack) = x := ofBits_toBits x
  rw [← hpack a, ← hpack b, h]

theorem neg_neg_unpacked (u : UnpackedFloat) : u.neg.neg = u := by
  rcases u with (_ | _) | - | (_ | _) | ⟨_ | _, m, e, hm⟩ <;> rfl

@[simp] protected theorem neg_neg (a : Float) : - -a = a := by
  apply eq_of_unpack_eq
  rw [unpack_neg, unpack_neg, neg_neg_unpacked]

theorem abs_neg_float (a : Float) : (-a).abs = a.abs := by
  apply eq_of_unpack_eq
  rw [unpack_abs, unpack_abs, unpack_neg]
  rcases a.toModel.unpack with (_ | _) | - | (_ | _) | ⟨_ | _, m, e, hm⟩ <;> rfl

theorem add_comm_unpacked (u v : UnpackedFloat) :
    UnpackedFloat.add .binary64 u v = UnpackedFloat.add .binary64 v u := by
  rcases u with (_ | _) | - | (_ | _) | ⟨s, m, e, hm⟩ <;>
    rcases v with (_ | _) | - | (_ | _) | ⟨t, n, d, hn⟩ <;> try rfl
  simp only [UnpackedFloat.add]
  rw [min_comm e d, add_comm (s.apply _)]

protected theorem neg_sub_neg (a b : Float) : -a - -b = b - a := by
  change Float.ofModel (.pack (UnpackedFloat.sub .binary64 (-a).toModel.unpack
    (-b).toModel.unpack)) =
    Float.ofModel (.pack (UnpackedFloat.sub .binary64 b.toModel.unpack a.toModel.unpack))
  rw [unpack_neg, unpack_neg, sub_eq_add_neg_unpacked, sub_eq_add_neg_unpacked, neg_neg_unpacked,
    add_comm_unpacked]

protected theorem neg_lt_neg_iff : -a < -b ↔ b < a := by
  simp only [lt_iff, isNaN_neg, position_neg, neg_lt_neg_iff]
  tauto

protected theorem neg_le_neg_iff : -a ≤ -b ↔ b ≤ a := by
  simp only [le_iff, isNaN_neg, position_neg, neg_le_neg_iff]
  tauto

protected theorem sub_eq_add_neg (a b : Float) : a - b = a + -b := by
  change Float.ofModel (.pack (UnpackedFloat.sub .binary64 a.toModel.unpack b.toModel.unpack)) =
    Float.ofModel (.pack (UnpackedFloat.add .binary64 a.toModel.unpack (-b).toModel.unpack))
  rw [unpack_neg, sub_eq_add_neg_unpacked]

/-- To go down from a double by a number that is not negative is to go up from its opposite. -/
theorem lt_sub_iff (ha : a.isFinite) (hx : (0 : Float) ≤ x) : c < a - x ↔ -a + x < -c := by
  have hna : (-a).isFinite := (isFinite_neg_float a).trans ha
  obtain ⟨hnan, hsum⟩ := add_nonneg_cases hna hx
  obtain ⟨-, hxnan, -⟩ := le_iff.mp hx
  have hdiff : (a - x).isNaN = false ∧ position (a - x) = -position (-a + x) := by
    rcases hsum with ⟨hfin, hsum⟩ | ⟨hlimit, hsum⟩
    · have hnear := isNearest_sub ha hfin
      refine ⟨hnear.isNaN_eq, ?_⟩
      rw [hnear.position_eq, hsum, position_neg, ← nearest_neg, neg_add_rev, neg_neg, add_comm,
        sub_eq_add_neg]
    · rw [Grid.sub_eq_add_neg, hsum, ← hlimit, ← position_neg]
      refine add_infinite ha ((isNaN_neg x).trans hxnan) ?_
      rw [position_neg, abs_neg, hlimit, abs_of_pos limit_pos]
  rw [lt_iff, lt_iff, isNaN_neg, position_neg, hdiff.2, hdiff.1, hnan, lt_neg]
  tauto

theorem add_le_add_of_nonneg (ha : a.isFinite) (hb : b.isFinite) (hx : (0 : Float) ≤ x)
    (hab : a ≤ b) : a + x ≤ b + x := by
  obtain ⟨hnan, ⟨hfin, -⟩ | ⟨-, hsum⟩⟩ := add_nonneg_cases ha hx
  · exact Grid.add_le_add_right ha hb hfin hab
  · obtain ⟨hnan', ⟨hfin, -⟩ | ⟨-, hsum'⟩⟩ := add_nonneg_cases hb hx
    · exact Grid.add_le_add_right ha hb hfin hab
    · exact le_iff.mpr ⟨hnan, hnan', (hsum.trans hsum'.symm).le⟩

theorem minimum_neg (a b : Float) :
    Binary64.minimum (-a) (-b) = -Binary64.maximum a b := by
  unfold Binary64.minimum Binary64.maximum
  simp only [Grid.neg_lt_neg_iff, Grid.neg_le_neg_iff, isNaN_neg]
  split_ifs <;> rfl

theorem maximum_neg (a b : Float) :
    Binary64.maximum (-a) (-b) = -Binary64.minimum a b := by
  rw [← Grid.neg_neg (Binary64.maximum (-a) (-b)), ← minimum_neg, Grid.neg_neg, Grid.neg_neg]

/-- Subtracting zero changes no double, not even the sign of a zero. -/
protected theorem sub_zero (a : Float) : a - 0 = a := by
  have hsub (u : UnpackedFloat) : UnpackedFloat.sub .binary64 u (.zero .positive) = u := by
    rcases u with (_ | _) | - | (_ | _) | ⟨_ | _, m, e, hm⟩ <;> rfl
  have hzero : (0 : Float).toModel.unpack = .zero .positive := rfl
  change Float.ofModel (.pack (UnpackedFloat.sub .binary64 a.toModel.unpack
    (0 : Float).toModel.unpack)) = a
  rw [hzero, hsub]
  exact ofBits_toBits a

theorem sub_le_self (hx : (0 : Float) ≤ x) (h : (a - x).isFinite) : a - x ≤ a := by
  rw [Grid.sub_eq_add_neg] at h
  obtain ⟨ha, hfin⟩ := isFinite_of_add h
  rw [isFinite_neg_float] at hfin
  have hsub := isNearest_sub ha hfin
  have hpos := (le_iff.mp hx).2.2
  rw [position_zero] at hpos
  refine le_iff.mpr ⟨hsub.isNaN_eq, isNaN_of_isFinite ha, ?_⟩
  rw [hsub.position_eq]
  exact nearest_le_of_le (onGrid_position a) (abs_position_le a) (by linarith)

/-! ## Opposites up to the sign of zeros -/

theorem eq_of_value_eq {s t : Sign} {m n : ℕ} {e d : ℤ} {hm : 0 < m} {hn : 0 < n}
    (hu : IsCanonical (.finite s m e hm)) (hv : IsCanonical (.finite t n d hn))
    (h : value (.finite s m e hm) = value (.finite t n d hn)) :
    UnpackedFloat.finite s m e hm = .finite t n d hn := by
  have hmpos := value_pos m e hm
  have hnpos := value_pos n d hn
  have hmagnitude : (m : ℚ) * 2 ^ e = n * 2 ^ d := by
    have habs : |signed s ((m : ℚ) * 2 ^ e)| = |signed t ((n : ℚ) * 2 ^ d)| :=
      congrArg (|·|) h
    rwa [abs_signed, abs_signed, abs_of_pos hmpos, abs_of_pos hnpos] at habs
  obtain rfl : s = t := by
    cases s <;> cases t <;> simp only [value, signed] at h <;> first | rfl | linarith
  have hcompare := compare_magnitudes hu hv
  rw [hmagnitude, compare_eq_iff_eq.mpr rfl, Ordering.then_eq_eq] at hcompare
  obtain ⟨he, hm⟩ := hcompare
  obtain rfl := compare_eq_iff_eq.mp he
  obtain rfl := compare_eq_iff_eq.mp hm
  rfl

theorem eq_of_position_eq (ha : a.isFinite) (hb : b.isFinite) (hne : position a ≠ 0)
    (h : position a = position b) : a = b := by
  have hu := isCanonical_unpack_toModel a
  have hv := isCanonical_unpack_toModel b
  apply eq_of_unpack_eq
  rw [position_eq_value ha] at h hne
  rw [position_eq_value hb] at h
  cases hau : a.toModel.unpack with
  | finite s m e hm =>
      cases hbv : b.toModel.unpack with
      | finite t n d hn =>
          rw [hau] at h hu
          rw [hbv] at h hv
          exact eq_of_value_eq hu hv h
      | _ =>
          rw [hbv] at h
          exact absurd h hne
  | _ =>
      rw [hau] at hne
      exact absurd rfl hne

theorem eq_of_beq (h : (a == b) = true) (hne : position a ≠ 0) : a = b := by
  obtain ⟨ha, hb, hposition⟩ := beq_iff.mp h
  by_cases hlimit : limit ≤ |position a|
  · obtain ⟨s, hs⟩ := exists_unpack_eq_infinity ha hlimit
    obtain ⟨t, ht⟩ := exists_unpack_eq_infinity hb (hposition ▸ hlimit)
    have hsigned : signed s limit = signed t limit := by
      unfold position at hposition
      rwa [hs, ht] at hposition
    have hpos := limit_pos
    have hsign : s = t := by
      cases s <;> cases t <;> simp only [signed] at hsigned ⊢ <;> linarith
    apply eq_of_unpack_eq
    rw [hs, ht, hsign]
  · rw [not_le] at hlimit
    exact eq_of_position_eq (isFinite_iff.mpr ⟨ha, hlimit⟩)
      (isFinite_iff.mpr ⟨hb, hposition ▸ hlimit⟩) hne hposition

theorem beq_zero_iff : (a == 0) = true ↔ a.isNaN = false ∧ position a = 0 := by
  rw [beq_iff, position_zero]
  exact ⟨fun h ↦ ⟨h.1, h.2.2⟩, fun h ↦ ⟨h.1, rfl, h.2⟩⟩

theorem exists_unpack_eq_zero (h : a == 0) : ∃ s, a.toModel.unpack = .zero s := by
  obtain ⟨hnan, hzero⟩ := beq_zero_iff.mp h
  have hfin : a.isFinite := by
    rw [isFinite_iff, hzero, abs_zero]
    exact ⟨hnan, limit_pos⟩
  have hvalue : unpackedPosition a.toModel.unpack = 0 := hzero
  have hunpacked : a.toModel.unpack.isFinite := hfin
  cases hu : a.toModel.unpack with
  | zero s => exact ⟨s, rfl⟩
  | finite s m e hm =>
      have hpos := value_pos m e hm
      rw [hu] at hvalue
      cases s <;> simp only [unpackedPosition, value, signed] at hvalue <;> linarith
  | _ =>
      rw [hu] at hunpacked
      exact absurd hunpacked Bool.false_ne_true

/-- Whether two doubles are opposites. The signs of zeros are ignored. -/
def IsOpposite (b a : Float) : Prop := b = -a ∨ b == 0 ∧ a == 0

namespace IsOpposite

theorem isNaN_eq (h : IsOpposite b a) : b.isNaN = a.isNaN := by
  rcases h with rfl | ⟨hb, ha⟩
  · exact isNaN_neg a
  · rw [(beq_zero_iff.mp hb).1, (beq_zero_iff.mp ha).1]

theorem position_eq (h : IsOpposite b a) : position b = -position a := by
  rcases h with rfl | ⟨hb, ha⟩
  · exact position_neg a
  · rw [(beq_zero_iff.mp hb).2, (beq_zero_iff.mp ha).2, neg_zero]

theorem eq_neg (h : IsOpposite b a) (hne : ¬ a == 0) : b = -a := h.resolve_right fun hzero ↦
  hne hzero.2

theorem beq_zero_eq (h : IsOpposite b a) : (b == 0) = (a == 0) := by
  rw [Bool.eq_iff_iff, beq_zero_iff, beq_zero_iff, h.isNaN_eq, h.position_eq, neg_eq_zero]

/-- The absolute values of opposites have the same bits, zeros or not. -/
theorem abs_eq (h : IsOpposite b a) : b.abs = a.abs := by
  rcases h with rfl | ⟨hb, ha⟩
  · exact abs_neg_float a
  · obtain ⟨s, hs⟩ := exists_unpack_eq_zero hb
    obtain ⟨t, ht⟩ := exists_unpack_eq_zero ha
    apply eq_of_unpack_eq
    rw [unpack_abs, unpack_abs, hs, ht]
    rfl

end IsOpposite

theorem isOpposite_sub (h : (a - b).isFinite) :
    (b - a).isFinite ∧ IsOpposite (b - a) (a - b) := by
  have hfinite := h
  rw [Grid.sub_eq_add_neg] at hfinite
  obtain ⟨ha, hb⟩ := isFinite_of_add hfinite
  rw [isFinite_neg_float] at hb
  have hsub := isNearest_sub ha hb
  have hswap := isNearest_sub hb ha
  have hposition : position (b - a) = -position (a - b) := by
    rw [hswap.position_eq, hsub.position_eq, ← nearest_neg, neg_sub]
  have hfin : (b - a).isFinite := by
    refine isFinite_iff.mpr ⟨hswap.isNaN_eq, ?_⟩
    rw [hposition, abs_neg]
    exact abs_position_lt h
  refine ⟨hfin, ?_⟩
  by_cases hzero : position (a - b) = 0
  · refine .inr ⟨beq_zero_iff.mpr ⟨hswap.isNaN_eq, ?_⟩, beq_zero_iff.mpr ⟨hsub.isNaN_eq, hzero⟩⟩
    rw [hposition, hzero, neg_zero]
  · refine .inl (eq_of_position_eq hfin ((isFinite_neg_float _).trans h) ?_ ?_)
    · rwa [hposition, neg_ne_zero]
    · rw [hposition, position_neg]

end CurveSearch.Grid
