import Calculator.Proofs.Nearest

/-! The rational numbers that are near.

Every finite number is a rational number, its `value`. A rational number rounds to the one
among them that is nearest to it, and if two are, to the one whose significand is even
(`RoundsTo`). That leaves no choice but the sign of zero (`RoundsTo.unique`), and `nearest`
makes the right one (`roundsTo_nearest`). -/
namespace Calculator.Binary64
open Float.Model (Format UnpackedFloat)
open Float.Model.UnpackedFloat (Sign unpack unpackSign unpackExponent unpackMantissa)

/-! ### Values -/

/-- The rational number that a finite number is. -/
def value (x : Float) : ℚ :=
  match unpack .binary64 (bits x) with
  | .finite sign m e _ => sign.apply m * 2 ^ e
  | _ => 0

/-- The integer that a finite number is a power of two times, up to its sign. -/
def significand (x : Float) : Nat :=
  match unpack .binary64 (bits x) with
  | .finite _ m _ _ => m
  | _ => 0

theorem two_zpow_sub (k n : Nat) : (2 : ℚ) ^ ((k : ℤ) - n) = 2 ^ k / 2 ^ n := by
  rw [zpow_sub₀ two_ne_zero, zpow_natCast, zpow_natCast]

/-- The bit before the mantissa of a normal number. -/
theorem toNat_leading (m : BitVec 52) : (1#1 ++ m).toNat = 2 ^ 52 + m.toNat := by
  rw [BitVec.toNat_append, ← Nat.shiftLeft_add_eq_or_of_lt m.isLt]
  rfl

theorem magnitude_eq_fields (x : Float) : magnitude x =
    (unpackExponent (bits x)).toNat * 2 ^ 52 + (unpackMantissa (bits x)).toNat := by
  rw [toNat_unpackExponent, toNat_unpackMantissa]
  show (bits x).toNat % 2 ^ 63 = _
  omega

/-- The sign of a number as a factor. -/
def factor (x : Float) : ℚ := if negative x then -1 else 1

theorem factor_ne_zero (x : Float) : factor x ≠ 0 := by
  unfold factor
  split
  · exact neg_ne_zero.mpr one_ne_zero
  · exact one_ne_zero

theorem apply_sign (x : Float) (m : Nat) :
    (((Sign.ofBitVec (unpackSign (bits x))).apply m : ℤ) : ℚ) = factor x * m := by
  rw [factor, negative_eq]
  have hcases : unpackSign (bits x) = 0#1 ∨ unpackSign (bits x) = 1#1 := by
    generalize unpackSign (bits x) = s
    revert s
    decide
  rcases hcases with h | h <;> rw [h] <;> simp [Sign.ofBitVec, Sign.apply]

variable {x : Float}

/-- How a finite number is unpacked. -/
theorem unpack_bits (hx : x.isFinite = true) :
    (unpack .binary64 (bits x) = .zero (Sign.ofBitVec (unpackSign (bits x))) ∧ magnitude x = 0) ∨
    ∃ m e hm, unpack .binary64 (bits x) =
        .finite (Sign.ofBitVec (unpackSign (bits x))) m ((e : ℕ) - (1074 : ℕ)) hm ∧
      units (magnitude x) = m * 2 ^ e ∧ m % 2 = magnitude x % 2 := by
  have hfields := magnitude_eq_fields x
  have hones := (isFinite_unpack (bits x)).mp hx
  have hmantissa : (unpackMantissa (bits x)).toNat < 2 ^ 52 := (unpackMantissa (bits x)).isLt
  unfold unpack
  dsimp only
  rw [if_neg hones]
  by_cases hexp : unpackExponent (bits x) = 0#11
  · have hmagnitude : magnitude x = (unpackMantissa (bits x)).toNat := by
      rw [hfields, hexp]
      exact Nat.zero_add _
    rw [if_pos hexp]
    split
    · next hzero => exact .inl ⟨rfl, by rw [hmagnitude, hzero]; rfl⟩
    · next hne =>
      refine .inr ⟨(unpackMantissa (bits x)).toNat, 0, ?_, ?_, ?_, by rw [hmagnitude]⟩
      · exact Nat.pos_of_ne_zero fun h => hne (BitVec.eq_of_toNat_eq h)
      · congr 1
        rw [hexp]
        rfl
      · rw [hmagnitude, units_of_lt hmantissa, Nat.pow_zero, Nat.mul_one]
  · rw [if_neg hexp]
    have hpos : 0 < (unpackExponent (bits x)).toNat :=
      Nat.pos_of_ne_zero fun h => hexp (BitVec.eq_of_toNat_eq h)
    refine .inr ⟨(1#1 ++ unpackMantissa (bits x)).toNat, (unpackExponent (bits x)).toNat - 1,
      ?_, ?_, ?_, ?_⟩
    · rw [toNat_leading]
      omega
    · congr 1
      show ((unpackExponent (bits x)).toNat : ℤ) - (1023 + 52 : ℕ) = _
      omega
    · rw [toNat_leading, hfields, units_of_le (by omega)]
      congr 2 <;> omega
    · rw [toNat_leading]
      omega

/-- **A number is its sign and its magnitude**, as a rational number too. -/
theorem value_eq (hx : x.isFinite = true) : value x = factor x * (units (magnitude x) / one) := by
  unfold value
  rcases unpack_bits hx with ⟨hunpack, hzero⟩ | ⟨m, e, hm, hunpack, hunits, -⟩
  · rw [hunpack, hzero, units_of_lt (by decide)]
    simp
  · rw [hunpack, hunits]
    dsimp only
    rw [apply_sign, two_zpow_sub, cast_one, Nat.cast_mul, Nat.cast_pow, Nat.cast_two, mul_assoc,
      mul_div_assoc]

theorem significand_mod_two (hx : x.isFinite = true) :
    significand x % 2 = magnitude x % 2 := by
  unfold significand
  rcases unpack_bits hx with ⟨hunpack, hzero⟩ | ⟨m, e, hm, hunpack, -, heven⟩
  · rw [hunpack, hzero]
  · rw [hunpack]
    exact heven

theorem value_ofMagnitude {n : Nat} (h : n < infinity) :
    value (ofMagnitude n) = units n / one := by
  rw [value_eq (isFinite_ofMagnitude h), magnitude_ofMagnitude h, factor, negative_ofMagnitude h]
  exact one_mul _

theorem units_div_one_strictMono : StrictMono fun n => (units n / one : ℚ) := fun _ _ h =>
  div_lt_div_of_pos_right (Nat.cast_lt.mpr (units_strictMono h)) (Nat.cast_pos.mpr one_pos)

/-! ### Rounding -/

/-- The number `x` is as near to `q` as any is, and if another one is as near, then the
significand of `x` is even. -/
structure RoundsTo (q : ℚ) (x : Float) : Prop where
  isFinite : x.isFinite = true
  le : ∀ y : Float, y.isFinite = true → |value x - q| ≤ |value y - q|
  even : ∀ y : Float, y.isFinite = true → value y ≠ value x → |value y - q| = |value x - q| →
    significand x % 2 = 0

/-- What lies between two numbers that are equally near to something is nearer. -/
theorem abs_sub_lt_of_between {a b c q : ℚ} (hab : a < b) (hbc : b < c) (h : |a - q| = |c - q|) :
    |b - q| < |a - q| := by
  rcases abs_eq_abs.mp h with h | h
  · linarith
  · rw [abs_of_neg (by linarith : a - q < 0)]
    exact abs_lt.mpr ⟨by linarith, by linarith⟩

theorem exists_of_magnitude {n : Nat} (h : n < infinity) (sign : Bool) :
    ∃ z : Float, z.isFinite = true ∧ negative z = sign ∧ magnitude z = n := by
  have hfinite := isFinite_ofMagnitude h
  cases sign with
  | false => exact ⟨ofMagnitude n, hfinite, negative_ofMagnitude h, magnitude_ofMagnitude h⟩
  | true =>
    refine ⟨-ofMagnitude n, isFinite_neg hfinite, ?_, ?_⟩
    · rw [negative_neg hfinite, negative_ofMagnitude h]
      rfl
    · rw [magnitude_neg hfinite, magnitude_ofMagnitude h]

/-- **There is one number that something rounds to**, up to the sign of zero. Of two that are
equally near and even, neither would be the nearest. -/
theorem RoundsTo.unique {q : ℚ} {x y : Float} (hx : RoundsTo q x) (hy : RoundsTo q y)
    (hsign : negative x = negative y) : x = y := by
  refine eq_of_magnitude_eq hsign ?_
  by_contra hne
  wlog hlt : magnitude x < magnitude y generalizing x y
  · exact this hy hx hsign.symm (Ne.symm hne) (lt_of_le_of_ne (Nat.not_lt.mp hlt) (Ne.symm hne))
  have htie := le_antisymm (hx.le y hy.isFinite) (hy.le x hx.isFinite)
  have hvalue : value x ≠ value y := fun heq => by
    have hfactor : factor y = factor x := by rw [factor, factor, hsign]
    rw [value_eq hx.isFinite, value_eq hy.isFinite, hfactor] at heq
    exact (units_div_one_strictMono hlt).ne (mul_left_cancel₀ (factor_ne_zero x) heq)
  have hevenx := hx.even y hy.isFinite hvalue.symm htie.symm
  have heveny := hy.even x hx.isFinite hvalue htie
  rw [significand_mod_two hx.isFinite] at hevenx
  rw [significand_mod_two hy.isFinite] at heveny
  -- So some number comes between them.
  have hbound := (isFinite_iff y).mp hy.isFinite
  obtain ⟨z, hz, hzsign, hzmagnitude⟩ :=
    exists_of_magnitude (n := magnitude x + 1) (by omega) (negative x)
  have hxz := units_div_one_strictMono (Nat.lt_succ_self (magnitude x))
  have hzy := units_div_one_strictMono (by omega : magnitude x + 1 < magnitude y)
  have hvx := value_eq hx.isFinite
  have hvy := value_eq hy.isFinite
  have hvz := value_eq hz
  rw [factor] at hvx
  rw [factor, ← hsign] at hvy
  rw [factor, hzsign, hzmagnitude] at hvz
  split at hvx
  · next hneg =>
    rw [if_pos hneg] at hvy hvz
    exact absurd (hy.le z hz)
      (not_le.mpr (abs_sub_lt_of_between (by linarith) (by linarith) htie.symm))
  · next hpos =>
    rw [if_neg hpos] at hvy hvz
    exact absurd (hx.le z hz)
      (not_le.mpr (abs_sub_lt_of_between (by linarith) (by linarith) htie))

section Quotients
variable {num den : Nat}

theorem nearest_beats_div (h : 0 < den) {n : Nat} (hn : n ≠ nearest num den) :
    |(units (nearest num den) / one : ℚ) - num / den| < |(units n / one : ℚ) - num / den| ∨
      |(units (nearest num den) / one : ℚ) - num / den| = |(units n / one : ℚ) - num / den| ∧
        nearest num den % 2 = 0 := by
  have hone : (0 : ℚ) < one := Nat.cast_pos.mpr one_pos
  have hden : (0 : ℚ) < den := Nat.cast_pos.mpr h
  have hscale : ∀ k : Nat, |(units k : ℚ) - (num * one : ℕ) / den| =
      |(units k / one : ℚ) - num / den| * one := fun k => by
    have hmul : (units k : ℚ) - (num * one : ℕ) / den = (units k / one - num / den) * one := by
      rw [Nat.cast_mul]
      field_simp
    rw [hmul, abs_mul, abs_of_pos hone]
  have hbeats := nearest_beats h hn
  rwa [hscale, hscale, mul_lt_mul_iff_left₀ hone, mul_left_inj' hone.ne'] at hbeats

/-- Without its sign a number is no further from what is not negative. -/
theorem abs_units_sub_le {y : Float} (hy : y.isFinite = true) {q : ℚ} (hq : 0 ≤ q) :
    |(units (magnitude y) / one : ℚ) - q| ≤ |value y - q| := by
  have hnonneg : (0 : ℚ) ≤ units (magnitude y) / one :=
    div_nonneg (Nat.cast_nonneg _) (Nat.cast_nonneg _)
  rw [value_eq hy, factor]
  split
  · rw [neg_one_mul, abs_sub_comm (-_), sub_neg_eq_add, abs_of_nonneg (add_nonneg hq hnonneg)]
    exact abs_le.mpr ⟨by linarith, by linarith⟩
  · rw [one_mul]

theorem nearest_of_eq_zero (h : 0 < den) (hzero : (num / den : ℚ) = 0) : nearest num den = 0 := by
  have hden : (den : ℚ) ≠ 0 := Nat.cast_ne_zero.mpr h.ne'
  obtain rfl : num = 0 := Nat.cast_eq_zero.mp ((div_eq_zero_iff.mp hzero).resolve_right hden)
  have hunits : units 0 = 0 := units_of_lt (by decide)
  calc nearest 0 den = nearest (units 0) one :=
        nearest_congr h one_pos (by rw [hunits, Nat.zero_mul, Nat.zero_mul])
    _ = 0 := nearest_units 0

theorem eq_zero_of_tie {u q : ℚ} (hu : 0 ≤ u) (hq : 0 ≤ q) (hne : -u ≠ u)
    (htie : |-u - q| = |u - q|) : q = 0 := by
  rw [abs_of_nonpos (by linarith)] at htie
  rcases abs_cases (u - q) with ⟨habs, -⟩ | ⟨habs, -⟩ <;> rw [habs] at htie
  · linarith
  · exact absurd (by linarith) hne

/-- **The nearest number is one that the quotient rounds to.** -/
theorem roundsTo_nearest (h : 0 < den) (hfinite : nearest num den < infinity) :
    RoundsTo (num / den) (ofMagnitude (nearest num den)) where
  isFinite := isFinite_ofMagnitude hfinite
  le y hy := by
    have hq : (0 : ℚ) ≤ num / den := div_nonneg (Nat.cast_nonneg num) (Nat.cast_nonneg den)
    rw [value_ofMagnitude hfinite]
    refine le_trans ?_ (abs_units_sub_le hy hq)
    by_cases hmagnitude : magnitude y = nearest num den
    · rw [hmagnitude]
    · exact (nearest_beats_div h hmagnitude).elim le_of_lt fun htie => htie.1.le
  even y hy hne htie := by
    have hq : (0 : ℚ) ≤ num / den := div_nonneg (Nat.cast_nonneg num) (Nat.cast_nonneg den)
    rw [significand_mod_two (isFinite_ofMagnitude hfinite), magnitude_ofMagnitude hfinite]
    rw [value_ofMagnitude hfinite] at hne htie
    have hle := abs_units_sub_le hy hq
    rw [htie] at hle
    by_cases hmagnitude : magnitude y = nearest num den
    · -- The two differ by their sign alone, so what they are equally near to is zero.
      have hnonneg : (0 : ℚ) ≤ units (nearest num den) / one :=
        div_nonneg (Nat.cast_nonneg _) (Nat.cast_nonneg _)
      rw [value_eq hy, hmagnitude, factor] at hne htie
      split at hne
      · rw [if_pos ‹_›, neg_one_mul] at htie
        have hzero : (num / den : ℚ) = 0 := eq_zero_of_tie hnonneg hq (by simpa using hne) htie
        rw [nearest_of_eq_zero h hzero]
      · exact absurd (one_mul _) hne
    · exact (nearest_beats_div h hmagnitude).elim (fun hlt => absurd hle (not_le.mpr hlt))
        fun htie => htie.2

end Quotients

end Calculator.Binary64
