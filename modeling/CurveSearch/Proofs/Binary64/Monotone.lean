import CurveSearch.Proofs.Binary64.Arithmetic

/-!
# Monotone arithmetic

What a search needs of its abscissas is order: adding to a finite double is monotone even where the
sum overflows, and what lies between two finite doubles is finite.
-/

namespace CurveSearch.Grid

variable {a b c x y : Float}

/-! ## Literals -/

@[simp] theorem position_zero : position 0 = 0 := rfl

@[simp] theorem isFinite_zero : (0 : Float).isFinite = true := rfl

theorem isNaN_nan : Binary64.nan.isNaN = true := rfl

theorem isFinite_half : (0.5 : Float).isFinite = true := rfl

theorem position_half : position 0.5 = 1 / 2 := by
  have hunpack : (0.5 : Float).toModel.unpack = .finite .positive (2 ^ 52) (-53) (by decide) := rfl
  rw [position, hunpack]
  norm_num [unpackedPosition, value, signed]

/-! ## Order -/

protected theorem le_refl (h : a.isNaN = false) : a ≤ a := le_iff.mpr ⟨h, h, le_rfl⟩

protected theorem le_of_lt (h : a < b) : a ≤ b := by
  obtain ⟨ha, hb, hlt⟩ := lt_iff.mp h
  exact le_iff.mpr ⟨ha, hb, hlt.le⟩

protected theorem le_trans (hab : a ≤ b) (hbc : b ≤ c) : a ≤ c := by
  obtain ⟨ha, -, hab⟩ := le_iff.mp hab
  obtain ⟨-, hc, hbc⟩ := le_iff.mp hbc
  exact le_iff.mpr ⟨ha, hc, hab.trans hbc⟩

protected theorem lt_of_lt_of_le (hab : a < b) (hbc : b ≤ c) : a < c := by
  obtain ⟨ha, -, hab⟩ := lt_iff.mp hab
  obtain ⟨-, hc, hbc⟩ := le_iff.mp hbc
  exact lt_iff.mpr ⟨ha, hc, hab.trans_le hbc⟩

protected theorem lt_of_le_of_lt (hab : a ≤ b) (hbc : b < c) : a < c := by
  obtain ⟨ha, -, hab⟩ := le_iff.mp hab
  obtain ⟨-, hc, hbc⟩ := lt_iff.mp hbc
  exact lt_iff.mpr ⟨ha, hc, hab.trans_lt hbc⟩

theorem not_lt_iff (ha : a.isNaN = false) (hb : b.isNaN = false) : ¬ a < b ↔ b ≤ a := by
  rw [lt_iff, le_iff]
  simp only [ha, hb, true_and, not_lt]

theorem not_le_iff (ha : a.isNaN = false) (hb : b.isNaN = false) : ¬ a ≤ b ↔ b < a := by
  rw [lt_iff, le_iff]
  simp only [ha, hb, true_and, not_le]

protected theorem lt_asymm (h : a < b) : ¬ b < a := fun h' ↦
  (lt_iff.mp h).2.2.not_gt (lt_iff.mp h').2.2

theorem abs_lt_of_position_eq_zero (hnan : a.isNaN = false) (hzero : position a = 0) (hb : 0 < b) :
    a.abs < b := by
  obtain ⟨-, hbnan, hpos⟩ := lt_iff.mp hb
  rw [lt_iff, isNaN_abs, position_abs, hzero, abs_zero]
  exact ⟨hnan, hbnan, hpos⟩

theorem abs_le_of_position_eq_zero (hnan : a.isNaN = false) (hzero : position a = 0) (hb : 0 ≤ b) :
    a.abs ≤ b := by
  obtain ⟨-, hbnan, hnonneg⟩ := le_iff.mp hb
  rw [le_iff, isNaN_abs, position_abs, hzero, abs_zero]
  exact ⟨hnan, hbnan, hnonneg⟩

theorem not_abs_lt (h : position b ≤ |position a|) : ¬ a.abs < b := by
  intro hlt
  obtain ⟨-, -, hlt⟩ := lt_iff.mp hlt
  rw [position_abs] at hlt
  exact hlt.not_ge h

theorem decide_neg_ne (h : a < 0 ∧ 0 < b ∨ 0 < a ∧ b < 0) : decide (a < 0) ≠ decide (b < 0) := by
  rcases h with ⟨ha, hb⟩ | ⟨ha, hb⟩
  · rw [decide_eq_true ha, decide_eq_false (Grid.lt_asymm hb)]
    exact Bool.noConfusion
  · rw [decide_eq_false (Grid.lt_asymm ha), decide_eq_true hb]
    exact Bool.noConfusion

theorem finite_float : Finite Float := by
  have hinjective : Function.Injective fun x : Float ↦ x.toModel.toBits.toFin := by
    rintro ⟨⟨a, _⟩⟩ ⟨⟨b, _⟩⟩ hab
    obtain rfl : a = b := UInt64.toFin_inj.mp hab
    rfl
  exact Finite.of_injective _ hinjective

theorem exists_length_le : ∃ n : ℕ, ∀ l : List Float, l.Pairwise (· < ·) → l.length ≤ n := by
  have hfinite := finite_float
  have hfintype := Fintype.ofFinite Float
  refine ⟨Fintype.card Float, fun l hl ↦ List.Nodup.length_le_card (hl.imp fun hlt heq ↦ ?_)⟩
  rw [heq] at hlt
  exact (lt_iff.mp hlt).2.2.false

theorem isFinite_of_le_of_le (ha : a.isFinite) (hb : b.isFinite) (h₁ : a ≤ x) (h₂ : x ≤ b) :
    x.isFinite := by
  obtain ⟨-, hx, h₁⟩ := le_iff.mp h₁
  obtain ⟨-, -, h₂⟩ := le_iff.mp h₂
  obtain ⟨ha, -⟩ := abs_lt.mp (abs_position_lt ha)
  obtain ⟨-, hb⟩ := abs_lt.mp (abs_position_lt hb)
  exact isFinite_iff.mpr ⟨hx, abs_lt.mpr ⟨ha.trans_le h₁, h₂.trans_lt hb⟩⟩

/-! ## Sums -/

/-- A sum with a number that is not below zero: the nearest double to the exact sum, or infinity. -/
theorem add_nonneg_cases (ha : a.isFinite) (hx : (0 : Float) ≤ x) :
    (a + x).isNaN = false ∧
      (x.isFinite ∧ position (a + x) = nearest (position a + position x) ∨
        position x = limit ∧ position (a + x) = limit) := by
  obtain ⟨-, hnan, hpos⟩ := le_iff.mp hx
  rw [position_zero] at hpos
  by_cases hfin : x.isFinite
  · have hsum := isNearest_add ha hfin
    exact ⟨hsum.isNaN_eq, .inl ⟨hfin, hsum.position_eq⟩⟩
  · have hlimit : limit ≤ |position x| := by
      by_contra hlt
      exact hfin (isFinite_iff.mpr ⟨hnan, not_le.mp hlt⟩)
    obtain ⟨hsumnan, hsum⟩ := add_infinite ha hnan hlimit
    have hx : position x = limit := by
      rw [abs_of_nonneg hpos] at hlimit
      exact le_antisymm (abs_le.mp (abs_position_le x)).2 hlimit
    exact ⟨hsumnan, .inr ⟨hx, hsum.trans hx⟩⟩

protected theorem add_le_add_left (ha : a.isFinite) (hx : (0 : Float) ≤ x) (hxy : x ≤ y) :
    a + x ≤ a + y := by
  obtain ⟨hnan, hcases⟩ := add_nonneg_cases ha hx
  obtain ⟨hnan', hcases'⟩ := add_nonneg_cases ha (Grid.le_trans hx hxy)
  obtain ⟨-, -, hle⟩ := le_iff.mp hxy
  refine le_iff.mpr ⟨hnan, hnan', ?_⟩
  rcases hcases' with ⟨hfin, hy⟩ | ⟨-, hy⟩
  · rcases hcases with ⟨-, hx⟩ | ⟨hx, -⟩
    · rw [hx, hy]
      exact nearest_mono (add_le_add_right hle _)
    · have hlt := (abs_lt.mp (abs_position_lt hfin)).2
      exact absurd (hx ▸ hle) hlt.not_ge
  · rw [hy]
    exact (abs_le.mp (abs_position_le _)).2

protected theorem add_le_add_right (ha : a.isFinite) (hb : b.isFinite) (hx : x.isFinite)
    (hab : a ≤ b) : a + x ≤ b + x := by
  have hsum := isNearest_add ha hx
  have hsum' := isNearest_add hb hx
  refine le_iff.mpr ⟨hsum.isNaN_eq, hsum'.isNaN_eq, ?_⟩
  rw [hsum.position_eq, hsum'.position_eq]
  exact nearest_mono (add_le_add_left (le_iff.mp hab).2.2 _)

theorem le_add_of_nonneg (ha : a.isFinite) (hx : (0 : Float) ≤ x) : a ≤ a + x := by
  obtain ⟨hnan, ⟨hfin, hsum⟩ | ⟨-, hsum⟩⟩ := add_nonneg_cases ha hx
  · refine le_iff.mpr ⟨isNaN_of_isFinite ha, hnan, ?_⟩
    obtain ⟨-, -, hpos⟩ := le_iff.mp hx
    rw [hsum]
    refine le_nearest_of_le (onGrid_position a) (abs_position_le a) ?_
    rw [position_zero] at hpos
    linarith
  · refine le_iff.mpr ⟨isNaN_of_isFinite ha, hnan, ?_⟩
    rw [hsum]
    exact (abs_le.mp (abs_position_le a)).2

theorem position_add_congr (ha : a.isFinite) (hx : (0 : Float) ≤ x) (hy : y.isNaN = false)
    (h : position x = position y) : position (a + x) = position (a + y) := by
  have hxy : x ≤ y := le_iff.mpr ⟨(le_iff.mp hx).2.1, hy, h.le⟩
  have hyx : y ≤ x := le_iff.mpr ⟨hy, (le_iff.mp hx).2.1, h.ge⟩
  exact le_antisymm (le_iff.mp (Grid.add_le_add_left ha hx hxy)).2.2
    (le_iff.mp (Grid.add_le_add_left ha (Grid.le_trans hx hxy) hyx)).2.2

/-- The double of a number overflows only if the doubles of all greater numbers do. -/
theorem isFinite_add_self (hb : (b + b).isFinite) (ha : a.isFinite)
    (h : |position a| ≤ position b) : (a + a).isFinite := by
  obtain ⟨hbfin, -⟩ := isFinite_of_add hb
  have hsum := isNearest_add ha ha
  have hlt := (abs_lt.mp (abs_position_lt hb)).2
  rw [(isNearest_add hbfin hbfin).position_eq] at hlt
  obtain ⟨hlow, hhigh⟩ := abs_le.mp h
  refine isFinite_iff.mpr ⟨hsum.isNaN_eq, abs_lt.mpr ⟨?_, ?_⟩⟩ <;> rw [hsum.position_eq]
  · calc -limit < -nearest (position b + position b) := neg_lt_neg hlt
      _ = nearest (-(position b + position b)) := (nearest_neg _).symm
      _ ≤ nearest (position a + position a) := nearest_mono (by linarith)
  · exact (nearest_mono (by linarith)).trans_lt hlt

/-! ## Products -/

theorem mul_nonneg_of_finite (ha : a.isFinite) (hx : x.isFinite) (ha₀ : 0 ≤ position a)
    (hx₀ : 0 ≤ position x) : (0 : Float) ≤ a * x := by
  have hprod := isNearest_mul ha hx
  refine le_iff.mpr ⟨rfl, hprod.isNaN_eq, ?_⟩
  rw [hprod.position_eq, position_zero]
  exact nearest_nonneg (mul_nonneg ha₀ hx₀)

theorem isFinite_half_mul (hx : x.isFinite) : (0.5 * x).isFinite := by
  have hprod := isNearest_mul isFinite_half hx
  refine isFinite_iff.mpr ⟨hprod.isNaN_eq, lt_of_le_of_lt (abs_le.mpr ?_) (abs_position_lt hx)⟩
  have habs := abs_position_le x
  have hgrid : OnGrid |position x| := (position_abs x) ▸ onGrid_position x.abs
  rw [hprod.position_eq, position_half]
  constructor
  · refine le_nearest_of_le hgrid.neg (by rwa [abs_neg, abs_abs]) ?_
    linarith [neg_abs_le (position x), abs_nonneg (position x)]
  · refine nearest_le_of_le hgrid (by rwa [abs_abs]) ?_
    linarith [le_abs_self (position x), abs_nonneg (position x)]

theorem isNaN_half_mul (hx : x.isNaN = false) : (0.5 * x).isNaN = false := by
  by_cases hfin : x.isFinite
  · exact isNaN_of_isFinite (isFinite_half_mul hfin)
  · have hlimit : limit ≤ |position x| := by
      by_contra hlt
      exact hfin (isFinite_iff.mpr ⟨hx, not_le.mp hlt⟩)
    obtain ⟨s, hs⟩ := exists_unpack_eq_infinity hx hlimit
    change (Float.Model.pack (Float.Model.UnpackedFloat.mul .binary64
      (0.5 : Float).toModel.unpack x.toModel.unpack)).isNaN = false
    rw [hs]
    cases s <;> rfl

end CurveSearch.Grid
