import Mathlib
import Calculator.Binary64

/-! Rounding what is exact already.

The number nearest to a quotient depends on the quotient alone, not on the fraction it is
written as (`nearest_congr`), and a quotient that is equal to a number has that number
nearest to it (`nearest_units`). -/
namespace Calculator.Binary64

/-! ### Fractions -/

theorem roundHalfEven_mul_right {c : Nat} (h : 0 < c) (num den : Nat) :
    roundHalfEven (num * c) (den * c) = roundHalfEven num den := by
  have htwice : 2 * (num * c % (den * c)) = 2 * (num % den) * c := by
    rw [Nat.mul_mod_mul_right, Nat.mul_assoc]
  have hlt : 2 * (num % den) * c < den * c ↔ 2 * (num % den) < den := Nat.mul_lt_mul_right h
  have heq : 2 * (num % den) * c = den * c ↔ 2 * (num % den) = den := Nat.mul_left_inj (by omega)
  simp only [roundHalfEven, Nat.mul_div_mul_right _ _ h, htwice, hlt, heq]

theorem roundHalfEven_mul_self {den : Nat} (h : 0 < den) (k : Nat) :
    roundHalfEven (k * den) den = k := by
  simp [roundHalfEven, Nat.mul_div_cancel _ h, h]

/-- The number one, in multiples of `2 ^ -1074`. -/
@[irreducible]
def one : Nat := Nat.pow 2 1074

theorem one_pos : 0 < one := by
  have hpow : ∀ n, 0 < Nat.pow 2 n := Nat.two_pow_pos
  unfold one
  exact hpow 1074

/-- How often a quotient is halved before it is rounded. -/
def halvings (num den : Nat) : Nat := (num * one / den).log2 - 52

theorem nearest_eq (num den : Nat) :
    nearest num den = halvings num den * 2 ^ 52 +
      roundHalfEven (num * one) (den * 2 ^ halvings num den) := by
  unfold nearest halvings one
  rfl

theorem nearest_mul_right {c : Nat} (h : 0 < c) (num den : Nat) :
    nearest (num * c) (den * c) = nearest num den := by
  have hscaled : num * c * one = num * one * c := Nat.mul_right_comm _ _ _
  have hhalvings : halvings (num * c) (den * c) = halvings num den := by
    rw [halvings, hscaled, Nat.mul_div_mul_right _ _ h, halvings]
  rw [nearest_eq, nearest_eq, hhalvings, hscaled, Nat.mul_right_comm den,
    roundHalfEven_mul_right h]

/-- Equal fractions have the same number nearest to them. -/
theorem nearest_congr {num den num' den' : Nat} (hden : 0 < den) (hden' : 0 < den')
    (h : num * den' = num' * den) : nearest num den = nearest num' den' := by
  calc nearest num den = nearest (num * den') (den * den') := (nearest_mul_right hden' _ _).symm
    _ = nearest (num' * den) (den' * den) := by rw [h, Nat.mul_comm den]
    _ = nearest num' den' := nearest_mul_right hden _ _

/-! ### Numbers -/

theorem units_of_lt {n : Nat} (h : n < 2 ^ 52) : units n = n := if_pos h

theorem units_of_le {n : Nat} (h : 2 ^ 52 ≤ n) :
    units n = (2 ^ 52 + n % 2 ^ 52) * 2 ^ (n / 2 ^ 52 - 1) := if_neg (Nat.not_lt.mpr h)

/-- A number has 53 bits at most before its last zeros, and halving takes these zeros off. -/
theorem units_eq_mul (n : Nat) :
    ∃ m s, units n = m * 2 ^ s ∧ (units n).log2 - 52 = s ∧ s * 2 ^ 52 + m = n := by
  by_cases h : n < 2 ^ 52
  · rw [units_of_lt h]
    refine ⟨n, 0, by rw [Nat.pow_zero, Nat.mul_one], ?_, by omega⟩
    by_cases hzero : n = 0
    · rw [hzero]
      rfl
    · have := (Nat.log2_lt hzero).mpr h
      omega
  · have hle : 2 ^ 52 ≤ n := Nat.not_lt.mp h
    have hmod : n % 2 ^ 52 < 2 ^ 52 := Nat.mod_lt _ (by decide)
    have hlog : (units n).log2 = 52 + (n / 2 ^ 52 - 1) := by
      rw [units_of_le hle, Nat.log2_eq_iff (by positivity)]
      constructor
      · rw [Nat.pow_add]
        exact Nat.mul_le_mul_right _ (by omega)
      · rw [Nat.add_right_comm, Nat.pow_add]
        exact Nat.mul_lt_mul_of_pos_right (by omega) (Nat.two_pow_pos _)
    refine ⟨2 ^ 52 + n % 2 ^ 52, n / 2 ^ 52 - 1, units_of_le hle, by omega, ?_⟩
    omega

/-- **A number is the nearest to itself.** -/
theorem nearest_units (n : Nat) : nearest (units n) one = n := by
  obtain ⟨m, s, hunits, hs, hn⟩ := units_eq_mul n
  have hhalvings : halvings (units n) one = s := by
    rw [halvings, Nat.mul_div_cancel _ one_pos, hs]
  rw [nearest_eq, hhalvings, Nat.mul_comm one, roundHalfEven_mul_right one_pos, hunits,
    roundHalfEven_mul_self (Nat.two_pow_pos s), hn]

end Calculator.Binary64
