import CurveSearch.Binary64
import CurveSearch.Proofs.Binary64.Packing

/-!
# Doubles on the rational line

A double that is a number has a position on the rational line: its value, or `± limit` for an
infinity. Comparing two doubles is comparing their positions, unless one of them is not a number, in
which case nothing holds between them.
-/

namespace CurveSearch.Grid

open Float.Model

/-! ## The order of unpacked doubles -/

theorem value_pos (m : ℕ) (e : ℤ) (hm : 0 < m) : (0 : ℚ) < m * 2 ^ e :=
  mul_pos (by exact_mod_cast hm) (zpow_pos two_pos e)

theorem value_lt_of_exponent_lt {m₁ m₂ : ℕ} {e₁ e₂ : ℤ} (hm₁ : m₁ < 2 ^ 53) (he₁ : -1074 ≤ e₁)
    (hm₂ : e₂ = -1074 ∨ 2 ^ 52 ≤ m₂) (he : e₁ < e₂) : (m₁ : ℚ) * 2 ^ e₁ < m₂ * 2 ^ e₂ := by
  have hbig : (2 ^ 52 : ℚ) ≤ m₂ := by exact_mod_cast hm₂.resolve_left (by omega)
  have hsmall : (m₁ : ℚ) < 2 ^ 53 := by exact_mod_cast hm₁
  calc (m₁ : ℚ) * 2 ^ e₁ < 2 ^ 53 * 2 ^ e₁ := mul_lt_mul_of_pos_right hsmall (zpow_pos two_pos e₁)
    _ = 2 ^ 52 * 2 ^ (e₁ + 1) := by
        rw [zpow_add₀ two_ne_zero]
        ring
    _ ≤ 2 ^ 52 * 2 ^ e₂ :=
        mul_le_mul_of_nonneg_left (zpow_le_zpow_right₀ one_le_two he) (by norm_num)
    _ ≤ m₂ * 2 ^ e₂ := mul_le_mul_of_nonneg_right hbig (zpow_pos two_pos e₂).le

theorem compare_magnitudes {m₁ m₂ : ℕ} {e₁ e₂ : ℤ} {h₁ : 0 < m₁} {h₂ : 0 < m₂}
    {s₁ s₂ : UnpackedFloat.Sign}
    (hu : IsCanonical (.finite s₁ m₁ e₁ h₁)) (hv : IsCanonical (.finite s₂ m₂ e₂ h₂)) :
    (compare e₁ e₂).then (compare m₁ m₂) = compare ((m₁ : ℚ) * 2 ^ e₁) (m₂ * 2 ^ e₂) := by
  rcases lt_trichotomy e₁ e₂ with he | rfl | he
  · rw [compare_lt_iff_lt.mpr he,
      compare_lt_iff_lt.mpr (value_lt_of_exponent_lt hu.1 hu.2.1 hv.2.2.2 he)]
    rfl
  · rw [compare_eq_iff_eq.mpr rfl, Ordering.then]
    have hpow : (0 : ℚ) < 2 ^ e₁ := zpow_pos two_pos e₁
    rcases lt_trichotomy m₁ m₂ with hm | rfl | hm
    · rw [compare_lt_iff_lt.mpr hm, compare_lt_iff_lt.mpr
        (mul_lt_mul_of_pos_right (by exact_mod_cast hm) hpow)]
    · rw [compare_eq_iff_eq.mpr rfl, compare_eq_iff_eq.mpr rfl]
    · rw [compare_gt_iff_gt.mpr hm, compare_gt_iff_gt.mpr
        (mul_lt_mul_of_pos_right (by exact_mod_cast hm) hpow)]
  · rw [compare_gt_iff_gt.mpr he,
      compare_gt_iff_gt.mpr (value_lt_of_exponent_lt hv.1 hv.2.1 hu.2.2.2 he)]
    rfl

theorem swap_compare_eq (q r : ℚ) : (compare q r).swap = compare (-q) (-r) := by
  rcases lt_trichotomy q r with h | rfl | h
  · rw [compare_lt_iff_lt.mpr h, compare_gt_iff_gt.mpr (neg_lt_neg h)]
    rfl
  · rw [compare_eq_iff_eq.mpr rfl, compare_eq_iff_eq.mpr rfl]
    rfl
  · rw [compare_gt_iff_gt.mpr h, compare_lt_iff_lt.mpr (neg_lt_neg h)]
    rfl

theorem compare_eq_compare_unpackedPosition {u v : UnpackedFloat} (hu : IsCanonical u)
    (hv : IsCanonical v)
    (hun : u.isNaN = false) (hvn : v.isNaN = false) :
    u.compare v = some (compare (unpackedPosition u) (unpackedPosition v)) := by
  have hlimit := limit_pos
  have hu₁ := abs_lt.mp (abs_value_lt_limit hu)
  have hv₁ := abs_lt.mp (abs_value_lt_limit hv)
  rcases u with (_ | _) | - | _ | ⟨_ | _, m, e, hm⟩ <;>
    rcases v with (_ | _) | - | _ | ⟨_ | _, n, d, hn⟩
  case finite.negative.finite.negative =>
    exact congrArg some ((congrArg Ordering.swap (compare_magnitudes hu hv)).trans
      (swap_compare_eq _ _))
  case finite.positive.finite.positive => exact congrArg some (compare_magnitudes hu hv)
  -- All other pairs are ordered by their signs and by which of them are infinite.
  all_goals
    first
    | have hmpos := value_pos m e hm
    | skip
    first
    | have hnpos := value_pos n d hn
    | skip
    simp only [UnpackedFloat.compare, unpackedPosition, value, signed, Option.some.injEq]
      at hu₁ hv₁ ⊢
    first
    | exact (compare_lt_iff_lt.mpr (by linarith)).symm
    | exact (compare_gt_iff_gt.mpr (by linarith)).symm
    | exact (compare_eq_iff_eq.mpr rfl).symm
    | exact absurd hun (by decide)
    | exact absurd hvn (by decide)

/-! ## Positions of doubles -/

/-- Where a double lies on the rational line: its value, or `± limit` for an infinity. What is not a
number lies at zero. -/
def position (x : Float) : ℚ := unpackedPosition x.toModel.unpack

variable {a b c : Float}

theorem isCanonical_unpack_toModel (x : Float) : IsCanonical x.toModel.unpack :=
  isCanonical_unpack _

theorem abs_position_le (x : Float) : |position x| ≤ limit :=
  abs_unpackedPosition_le (isCanonical_unpack_toModel x)

theorem isFinite_iff : a.isFinite ↔ a.isNaN = false ∧ |position a| < limit := by
  have hvalue := abs_value_lt_limit (isCanonical_unpack_toModel a)
  unfold Float.isFinite Float.isNaN Float.Model.isFinite Float.Model.isNaN position
  cases hu : a.toModel.unpack with
  | infinity s =>
      have habs : |unpackedPosition (.infinity s)| = limit := by
        rw [unpackedPosition, abs_signed, abs_of_pos limit_pos]
      simp [habs, UnpackedFloat.isFinite]
  | notANumber => simp [UnpackedFloat.isFinite, UnpackedFloat.isNaN]
  | zero s => simp [UnpackedFloat.isFinite, UnpackedFloat.isNaN, unpackedPosition, value, limit_pos]
  | finite s m e hm =>
      rw [hu] at hvalue
      simpa [UnpackedFloat.isFinite, UnpackedFloat.isNaN, unpackedPosition] using hvalue

theorem isNaN_of_isFinite (h : a.isFinite) : a.isNaN = false := (isFinite_iff.mp h).1

theorem abs_position_lt (h : a.isFinite) : |position a| < limit := (isFinite_iff.mp h).2

/-- Every position is on the grid, the ones of the infinities too. -/
theorem onGrid_position (x : Float) : OnGrid (position x) := by
  have hvalue := onGrid_value (isCanonical_unpack_toModel x)
  unfold position
  cases hu : x.toModel.unpack with
  | infinity s =>
      have hlimit : OnGrid limit := by
        have h := onGrid_two_pow (e := 1024) (by norm_num)
        rwa [zpow_ofNat] at h
      cases s
      · exact hlimit.neg
      · exact hlimit
  | _ =>
      rw [hu] at hvalue
      exact hvalue

theorem nearest_position (x : Float) : nearest (position x) = position x :=
  nearest_eq_self (onGrid_position x) (abs_position_le x)

/-! ## The order of doubles -/

theorem compare_of_isNaN {u v : UnpackedFloat} (h : u.isNaN = true ∨ v.isNaN = true) :
    u.compare v = none := by
  rcases u with (_ | _) | - | _ | ⟨_ | _, m, e, hm⟩ <;>
    rcases v with (_ | _) | - | _ | ⟨_ | _, n, d, hn⟩ <;>
      first
      | rfl
      | simp [UnpackedFloat.isNaN] at h

theorem compare_unpack (a b : Float) :
    a.toModel.unpack.compare b.toModel.unpack =
      if a.isNaN = false ∧ b.isNaN = false then some (compare (position a) (position b))
      else none := by
  split_ifs with h
  · exact compare_eq_compare_unpackedPosition (isCanonical_unpack_toModel a)
      (isCanonical_unpack_toModel b)
      h.1 h.2
  · refine compare_of_isNaN ?_
    rw [Classical.not_and_iff_not_or_not, Bool.not_eq_false, Bool.not_eq_false] at h
    exact h

theorem lt_iff : a < b ↔ a.isNaN = false ∧ b.isNaN = false ∧ position a < position b := by
  refine (decide_eq_true_iff
    (p := (a.toModel.unpack.compare b.toModel.unpack == some .lt) = true)).trans ?_
  rw [compare_unpack, ← and_assoc]
  split_ifs with h
  · rw [and_iff_right h, ← compare_lt_iff_lt, beq_iff_eq, Option.some.injEq]
  · exact iff_of_false Bool.noConfusion fun h' ↦ h h'.1

theorem le_iff : a ≤ b ↔ a.isNaN = false ∧ b.isNaN = false ∧ position a ≤ position b := by
  refine (decide_eq_true_iff
    (p := (a.toModel.unpack.compare b.toModel.unpack).any (·.isLE) = true)).trans ?_
  rw [compare_unpack, ← and_assoc]
  split_ifs with h
  · rw [and_iff_right h, ← compare_le_iff_le, Option.any_some, Ordering.isLE_iff_ne_gt]
  · exact iff_of_false Bool.noConfusion fun h' ↦ h h'.1

theorem beq_iff :
    (a == b) = true ↔ a.isNaN = false ∧ b.isNaN = false ∧ position a = position b := by
  change (a.toModel.unpack.compare b.toModel.unpack == some .eq) = true ↔ _
  rw [compare_unpack, ← and_assoc]
  split_ifs with h
  · rw [and_iff_right h, beq_iff_eq, Option.some.injEq, compare_eq_iff_eq]
  · exact iff_of_false Bool.noConfusion fun h' ↦ h h'.1

end CurveSearch.Grid
