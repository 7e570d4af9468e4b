import Calculator.Proofs.Grids

/-! Rounding on both sides of zero.

Opposites round to opposites (`RoundsTo.neg`), and what rounds to a number other than zero has
its sign, so that rounding is a matter of what is nearest without the sign (`rounds_iff`). -/
namespace Calculator.Binary64

/-! ### Too large -/

/-- A rational number rounds to a finite number: it is not as large as to round to infinity,
which it is from halfway between the last finite number and the next power of two. -/
structure Rounds (q : ℚ) (x : Float) : Prop extends RoundsTo q x where
  lt : |q| < 2 ^ 1024 - 2 ^ 970

theorem near_lt_infinity_iff {q : ℚ} (h : 0 ≤ q) : near q < infinity ↔ q < 2 ^ 1024 - 2 ^ 970 := by
  obtain ⟨num, den, hden, rfl⟩ := exists_eq_div h
  rw [near_div hden]
  exact nearest_lt_infinity_iff hden

theorem roundsTo_near {q : ℚ} (h : 0 ≤ q) (hfinite : near q < infinity) :
    RoundsTo q (ofMagnitude (near q)) := by
  obtain ⟨num, den, hden, rfl⟩ := exists_eq_div h
  rw [near_div hden] at hfinite ⊢
  exact roundsTo_nearest hden hfinite

/-! ### Opposites -/

section Signs
variable {x : Float}

theorem factor_neg (hx : x.isFinite = true) : factor (-x) = -factor x := by
  unfold factor
  rw [negative_neg hx]
  cases negative x <;> simp

theorem value_neg (hx : x.isFinite = true) : value (-x) = -value x := by
  rw [value_eq (isFinite_neg hx), value_eq hx, magnitude_neg hx, factor_neg hx, neg_mul]

theorem neg_neg_of_isFinite (hx : x.isFinite = true) : - -x = x := by
  have hneg := isFinite_neg hx
  refine eq_of_magnitude_eq ?_ ?_
  · rw [negative_neg hneg, negative_neg hx, Bool.not_not]
  · rw [magnitude_neg hneg, magnitude_neg hx]

theorem factor_mul_self (x : Float) : factor x * factor x = 1 := by
  unfold factor
  split <;> norm_num

theorem abs_factor (x : Float) : |factor x| = 1 := by
  unfold factor
  split <;> norm_num

theorem abs_value (hx : x.isFinite = true) : |value x| = size (magnitude x) := by
  have hnonneg : (0 : ℚ) ≤ units (magnitude x) / one :=
    div_nonneg (Nat.cast_nonneg _) (Nat.cast_nonneg _)
  rw [value_eq hx, abs_mul, abs_factor, one_mul, abs_of_nonneg hnonneg, size]

theorem abs_value_neg_sub (hx : x.isFinite = true) (q : ℚ) :
    |value (-x) - -q| = |value x - q| := by
  rw [value_neg hx, neg_sub_neg, abs_sub_comm]

/-- Opposites round to opposites. -/
theorem RoundsTo.neg {q : ℚ} (h : RoundsTo q x) : RoundsTo (-q) (-x) := by
  have hflip : ∀ y : Float, y.isFinite = true → |value y - -q| = |value (-y) - q| := fun y hy => by
    rw [← abs_value_neg_sub (isFinite_neg hy), neg_neg_of_isFinite hy]
  refine ⟨isFinite_neg h.isFinite, fun y hy => ?_, fun y hy hne htie => ?_⟩
  · rw [abs_value_neg_sub h.isFinite, hflip y hy]
    exact h.le (-y) (isFinite_neg hy)
  · rw [abs_value_neg_sub h.isFinite, hflip y hy] at htie
    rw [value_neg h.isFinite] at hne
    rw [significand_mod_two (isFinite_neg h.isFinite), magnitude_neg h.isFinite,
      ← significand_mod_two h.isFinite]
    refine h.even (-y) (isFinite_neg hy) (fun heq => hne ?_) htie
    rw [← heq, value_neg hy, neg_neg]

theorem RoundsTo.of_neg {q : ℚ} (hx : x.isFinite = true) (h : RoundsTo (-q) (-x)) :
    RoundsTo q x := by
  have hneg := h.neg
  rwa [neg_neg, neg_neg_of_isFinite hx] at hneg

/-- What rounds to a number other than zero is on the same side of zero. -/
theorem RoundsTo.factor_mul_nonneg {q : ℚ} (h : RoundsTo (factor x * q) x) (hx : magnitude x ≠ 0) :
    0 ≤ q := by
  have hzero : value (ofMagnitude 0) = 0 := by
    rw [value_ofMagnitude (by decide), ← size, size_zero]
  have hle := h.le (ofMagnitude 0) (isFinite_ofMagnitude (by decide))
  have hsize := size_pos hx
  rw [hzero, zero_sub, abs_neg, value_eq h.isFinite, ← size, ← mul_sub, abs_mul, abs_mul,
    mul_le_mul_iff_right₀ (abs_pos.mpr (factor_ne_zero x))] at hle
  by_contra hneg
  rw [abs_of_pos (by linarith : 0 < size (magnitude x) - q), abs_of_neg (by linarith)] at hle
  linarith

/-- The sign apart, what is nearest is what counts. -/
theorem roundsTo_factor_mul_iff (hx : x.isFinite = true) (q : ℚ) :
    RoundsTo (factor x * q) x ↔ RoundsTo q (ofMagnitude (magnitude x)) := by
  cases hn : negative x with
  | false => rw [factor, hn, ofMagnitude_magnitude hx hn, if_neg Bool.false_ne_true, one_mul]
  | true =>
    rw [factor, hn, ofMagnitude_eq_neg hx hn, if_pos rfl, neg_one_mul]
    refine ⟨fun h => ?_, fun h => RoundsTo.of_neg hx ?_⟩
    · have hneg := h.neg
      rwa [neg_neg] at hneg
    · rwa [neg_neg]

/-- **A rational number rounds to a number other than zero if it has its sign, and that number
is the nearest to it without the sign.** -/
theorem rounds_iff (hx : x.isFinite = true) (hmagnitude : magnitude x ≠ 0) (q : ℚ) :
    Rounds (factor x * q) x ↔ near q = magnitude x := by
  have hlt := (isFinite_iff x).mp hx
  have habs : 0 ≤ q → |factor x * q| = q := fun hq => by
    rw [abs_mul, abs_factor, one_mul, abs_of_nonneg hq]
  constructor
  · intro h
    have hq := h.factor_mul_nonneg hmagnitude
    have hfinite : near q < infinity := (near_lt_infinity_iff hq).mpr (habs hq ▸ h.lt)
    have hsame := (roundsTo_near hq hfinite).unique ((roundsTo_factor_mul_iff hx q).mp h.toRoundsTo)
      (by rw [negative_ofMagnitude hfinite, negative_ofMagnitude hlt])
    rw [← magnitude_ofMagnitude hfinite, hsame, magnitude_ofMagnitude hlt]
  · intro h
    have hq : 0 ≤ q := by
      by_contra hneg
      rw [near_of_nonpos (not_le.mp hneg).le] at h
      exact hmagnitude h.symm
    have hfinite : near q < infinity := by rwa [h]
    refine ⟨(roundsTo_factor_mul_iff hx q).mpr ?_, ?_⟩
    · rw [← h]
      exact roundsTo_near hq hfinite
    · rw [habs hq]
      exact (near_lt_infinity_iff hq).mp hfinite

end Signs

end Calculator.Binary64
