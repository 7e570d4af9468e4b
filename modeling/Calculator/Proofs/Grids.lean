import Calculator.Proofs.Readback
import Calculator.Proofs.Values

/-! The coarsest grid that holds a number.

Whether a decimal reads back as a number is a matter of order: a larger quotient never has a
smaller number nearest to it (`near_mono`), so what lies between two decimals that read back
reads back too (`near_of_between`). Of all points of a grid it is therefore enough to look at
the two next to the number, and the search for the shortest decimal ends at the coarsest grid
of which any point reads back, with the nearest of its points that do (`exists_coarsest`). -/
namespace Calculator

namespace Binary64

/-! ### Rational numbers -/

/-- The rational number that a magnitude is. -/
def size (n : Nat) : ℚ := units n / one

theorem size_strictMono : StrictMono size := units_div_one_strictMono

theorem size_zero : size 0 = 0 := by
  rw [size, units_of_lt (by decide), Nat.cast_zero, zero_div]

theorem size_pos {n : Nat} (h : n ≠ 0) : 0 < size n := by
  rw [← size_zero]
  exact size_strictMono (Nat.pos_of_ne_zero h)

/-- The magnitude of the number nearest to a rational number, where a negative one counts as
zero. -/
def near (q : ℚ) : Nat := nearest q.num.toNat q.den

theorem near_div {num den : Nat} (h : 0 < den) : near (num / den) = nearest num den := by
  have hden : (den : ℚ) ≠ 0 := Nat.cast_ne_zero.mpr h.ne'
  have hnum : (0 : ℚ) ≤ num / den := div_nonneg (Nat.cast_nonneg num) (Nat.cast_nonneg den)
  generalize hq : (num / den : ℚ) = q at hnum
  obtain ⟨k, hk⟩ := Int.eq_ofNat_of_zero_le (Rat.num_nonneg.mpr hnum)
  have hquot : (num / den : ℚ) = k / q.den := by
    rw [hq, ← Int.cast_natCast, ← hk, Rat.num_div_den]
  rw [near, hk, Int.toNat_natCast]
  refine nearest_congr q.den_pos h ?_
  rw [div_eq_div_iff hden (Nat.cast_ne_zero.mpr q.den_nz)] at hquot
  exact_mod_cast hquot.symm

/-- Every rational number that is not negative is a quotient of natural numbers. -/
theorem exists_eq_div {q : ℚ} (h : 0 ≤ q) : ∃ num den : Nat, 0 < den ∧ q = num / den := by
  obtain ⟨k, hk⟩ := Int.eq_ofNat_of_zero_le (Rat.num_nonneg.mpr h)
  exact ⟨k, q.den, q.den_pos, by rw [← Int.cast_natCast, ← hk, Rat.num_div_den]⟩

theorem near_of_nonpos {q : ℚ} (h : q ≤ 0) : near q = 0 := by
  rw [near, Int.toNat_of_nonpos (Rat.num_nonpos.mpr h)]
  exact nearest_of_eq_zero q.den_pos (by rw [Nat.cast_zero, zero_div])

/-- **A number is the nearest to itself.** -/
theorem near_size (n : Nat) : near (size n) = n := by
  rw [size, near_div one_pos, nearest_units]

theorem abs_size_near_sub_le {q : ℚ} (h : 0 ≤ q) (n : Nat) :
    |size (near q) - q| ≤ |size n - q| := by
  obtain ⟨num, den, hden, rfl⟩ := exists_eq_div h
  rw [near_div hden]
  by_cases hn : n = nearest num den
  · rw [hn]
  · exact (nearest_beats_div hden hn).elim le_of_lt fun htie => htie.1.le

section Middle
variable {q : ℚ} {n m : Nat}

/-- What is nearest to a number does not go beyond the middle between it and a larger one. -/
theorem two_mul_le_of_near (h : 0 ≤ q) (hn : near q = n) (hnm : n < m) :
    2 * q ≤ size n + size m := by
  have hlt : size n < size m := size_strictMono hnm
  have hle := abs_size_near_sub_le h m
  rw [hn] at hle
  by_contra hlarge
  rw [abs_of_neg (by linarith)] at hle
  exact absurd hle (not_le.mpr (abs_lt.mpr ⟨by linarith, by linarith⟩))

theorem le_two_mul_of_near (h : 0 ≤ q) (hm : near q = m) (hnm : n < m) :
    size n + size m ≤ 2 * q := by
  have hlt : size n < size m := size_strictMono hnm
  have hle := abs_size_near_sub_le h n
  rw [hm] at hle
  by_contra hsmall
  rw [abs_of_pos (by linarith)] at hle
  exact absurd hle (not_le.mpr (abs_lt.mpr ⟨by linarith, by linarith⟩))

end Middle

/-- **A larger quotient has no smaller number nearest to it.** Otherwise both would lie halfway
between the two numbers. -/
theorem near_mono : Monotone near := by
  intro a b hab
  by_contra hlt
  rw [not_le] at hlt
  rcases le_total a 0 with ha | ha
  · rw [near_of_nonpos ha] at hlt
    exact absurd hlt (Nat.not_lt_zero _)
  · have hupper := two_mul_le_of_near (ha.trans hab) rfl hlt
    have hlower := le_two_mul_of_near ha rfl hlt
    have hsame : a = b := by linarith
    rw [hsame] at hlt
    exact lt_irrefl _ hlt

/-- What lies between two quotients with the same number nearest to them has it too. -/
theorem near_of_between {a b c : ℚ} {n : Nat} (ha : near a = n) (hc : near c = n) (hab : a ≤ b)
    (hbc : b ≤ c) : near b = n :=
  le_antisymm (hc ▸ near_mono hbc) (ha ▸ near_mono hab)

end Binary64

namespace Decimal
open Binary64 (near near_of_between near_size size units one)

/-! ### Decimals as rational numbers -/

def toRat (d : Decimal) : ℚ := d.digits * 10 ^ d.exponent

theorem toRat_eq (d : Decimal) : d.toRat = d.numerator / d.denominator := by
  obtain ⟨n, exponent⟩ := d
  cases exponent with
  | ofNat zeros =>
    show (n * 10 ^ (zeros : ℤ) : ℚ) = numerator ⟨n, zeros⟩ / denominator ⟨n, zeros⟩
    rw [numerator_ofNat, denominator_ofNat, zpow_natCast, Nat.cast_one, div_one, Nat.cast_mul,
      Nat.cast_pow, Nat.cast_ofNat]
  | negSucc k =>
    show (n * 10 ^ (-((k + 1 : ℕ) : ℤ)) : ℚ) =
      numerator ⟨n, -(k + 1 : ℕ)⟩ / denominator ⟨n, -(k + 1 : ℕ)⟩
    rw [numerator_neg, denominator_neg, zpow_neg, zpow_natCast, Nat.cast_pow, Nat.cast_ofNat,
      div_eq_mul_inv]

theorem magnitude_eq_near (d : Decimal) : d.magnitude = near d.toRat := by
  rw [toRat_eq, Binary64.near_div d.denominator_pos]
  rfl

/-- The distance of two points next to each other on a grid. -/
def step (j : Nat) : ℚ := 10 ^ ((j : ℤ) - 1074)

theorem step_pos (j : Nat) : 0 < step j := zpow_pos (by norm_num) _

theorem step_succ (j : Nat) : step (j + 1) = 10 * step j := by
  have hexponent : ((j + 1 : ℕ) : ℤ) - 1074 = (j : ℤ) - 1074 + 1 := by
    rw [Nat.cast_succ]
    ring
  rw [step, step, hexponent, zpow_add_one₀ (by norm_num), mul_comm]

theorem step_eq (j : Nat) : step j = 10 ^ j * step 0 := by
  induction j with
  | zero => rw [pow_zero, one_mul]
  | succ j ih => rw [step_succ, ih, pow_succ', mul_assoc]

theorem toRat_gridPoint (j k : Nat) : (gridPoint j k).toRat = k * step j := rfl

/-- The finest grid holds all numbers. -/
theorem size_eq (n : Nat) : size n = exactly n * step 0 := by
  have hgrid : gridPoint 0 (exactly n) = ⟨exactly n, -(1074 : Nat)⟩ := rfl
  have hpowers : ∀ e : Nat, (units n / (Nat.pow 2 e : ℕ) : ℚ) =
      ((units n * Nat.pow 5 e : ℕ) : ℚ) / ((10 ^ e : ℕ) : ℚ) := fun e => by
    have htwo : ((Nat.pow 2 e : ℕ) : ℚ) = 2 ^ e := Nat.cast_pow 2 e
    have hfive : ((Nat.pow 5 e : ℕ) : ℚ) = 5 ^ e := Nat.cast_pow 5 e
    have hten : (10 : ℚ) ^ e = 2 ^ e * 5 ^ e := by rw [← mul_pow]; norm_num
    rw [Nat.cast_mul, Nat.cast_pow, htwo, hfive, Nat.cast_ofNat, hten]
    field_simp
  rw [← toRat_gridPoint, hgrid, toRat_eq, numerator_neg, denominator_neg, size]
  unfold exactly one
  generalize 1074 = e
  exact hpowers e

/-! ### The points next to a number -/

section Neighbours
variable {n j : Nat}

/-- The last point of a grid that is not above a number. -/
def below (n j : Nat) : Nat := exactly n / 10 ^ j

theorem below_mul_le (n j : Nat) : below n j * step j ≤ size n := by
  have hle : ((below n j * 10 ^ j : ℕ) : ℚ) ≤ exactly n := Nat.cast_le.mpr (Nat.div_mul_le_self _ _)
  rw [step_eq, size_eq, ← mul_assoc]
  refine mul_le_mul_of_nonneg_right ?_ (step_pos 0).le
  exact_mod_cast hle

theorem lt_above_mul (n j : Nat) : size n < (below n j + 1) * step j := by
  have hlt : (exactly n : ℚ) < ((below n j + 1) * 10 ^ j : ℕ) :=
    Nat.cast_lt.mpr (Nat.lt_mul_of_div_lt (Nat.lt_succ_self _) (by positivity))
  rw [step_eq, size_eq, ← mul_assoc]
  refine mul_lt_mul_of_pos_right ?_ (step_pos 0)
  exact_mod_cast hlt

/-- Every point of a grid is on the one side of a number or on the other. -/
theorem mul_le_or_le_mul (n j m : Nat) :
    m * step j ≤ below n j * step j ∨ (below n j + 1) * step j ≤ m * step j := by
  rcases Nat.lt_or_ge (below n j) m with hlt | hle
  · exact .inr (mul_le_mul_of_nonneg_right (by exact_mod_cast hlt) (step_pos j).le)
  · exact .inl (mul_le_mul_of_nonneg_right (by exact_mod_cast hle) (step_pos j).le)

/-- If a point of a grid reads back, so does the one next to the number on its side. -/
theorem near_below_of_le {m : Nat} (hm : near (m * step j) = n)
    (hle : m * step j ≤ below n j * step j) : near (below n j * step j) = n :=
  near_of_between hm (near_size n) hle (below_mul_le n j)

theorem near_above_of_le {m : Nat} (hm : near (m * step j) = n)
    (hle : (below n j + 1) * step j ≤ m * step j) : near ((below n j + 1) * step j) = n :=
  near_of_between (near_size n) hm (lt_above_mul n j).le hle

/-- Half a step decides which of the two points is the nearer. -/
theorem le_two_mul_mod_iff (n j : Nat) : 10 ^ j ≤ 2 * (exactly n % 10 ^ j) ↔
    (below n j + 1) * step j - size n ≤ size n - below n j * step j := by
  have hdivide : ((below n j : ℕ) : ℚ) * 10 ^ j + (exactly n % 10 ^ j : ℕ) = exactly n := by
    exact_mod_cast Nat.div_add_mod' (exactly n) (10 ^ j)
  have hscale : (below n j + 1) * step j - size n ≤ size n - below n j * step j ↔
      ((10 ^ j : ℕ) : ℚ) ≤ (2 * (exactly n % 10 ^ j) : ℕ) := by
    rw [step_eq, size_eq, ← mul_assoc, ← mul_assoc, ← sub_mul, ← sub_mul,
      mul_le_mul_iff_left₀ (step_pos 0), Nat.cast_pow, Nat.cast_mul, Nat.cast_ofNat, Nat.cast_ofNat]
    constructor <;> intro h <;> linarith
  rw [hscale, Nat.cast_le]

/-- A point of a grid that reads back, and none of the others that do is nearer. -/
structure Best (n j k : Nat) : Prop where
  near_eq : near (k * step j) = n
  closest : ∀ m : Nat, near (m * step j) = n → |k * step j - size n| ≤ |m * step j - size n|

theorem best_below (h : near (below n j * step j) = n)
    (habove : near ((below n j + 1) * step j) = n →
      size n - below n j * step j ≤ (below n j + 1) * step j - size n) :
    Best n j (below n j) where
  near_eq := h
  closest m hm := by
    have hbelow := below_mul_le n j
    rw [abs_of_nonpos (by linarith)]
    rcases mul_le_or_le_mul n j m with hle | hle
    · rw [abs_of_nonpos (by linarith)]
      linarith
    · have hnearer := habove (near_above_of_le hm hle)
      have hlt := lt_above_mul n j
      rw [abs_of_nonneg (by linarith)]
      linarith

theorem best_above (h : near ((below n j + 1) * step j) = n)
    (hbelow : near (below n j * step j) = n →
      (below n j + 1) * step j - size n ≤ size n - below n j * step j) :
    Best n j (below n j + 1) where
  near_eq := by rwa [Nat.cast_succ]
  closest m hm := by
    have hlt := lt_above_mul n j
    rw [Nat.cast_succ, abs_of_nonneg (by linarith)]
    rcases mul_le_or_le_mul n j m with hle | hle
    · have hnearer := hbelow (near_below_of_le hm hle)
      have hle' := below_mul_le n j
      rw [abs_of_nonpos (by linarith)]
      linarith
    · rw [abs_of_nonneg (by linarith)]
      linarith

theorem neighbour?_eq (n j : Nat) : neighbour? n j =
    if near (below n j * step j) = n then
      if near ((below n j + 1) * step j) = n ∧ 10 ^ j ≤ 2 * (exactly n % 10 ^ j) then
        some (gridPoint j (below n j + 1))
      else some (gridPoint j (below n j))
    else if near ((below n j + 1) * step j) = n then some (gridPoint j (below n j + 1))
    else none := by
  have hbelow : (gridPoint j (below n j)).magnitude = near (below n j * step j) :=
    magnitude_eq_near _
  have habove : (gridPoint j (below n j + 1)).magnitude = near ((below n j + 1) * step j) := by
    rw [magnitude_eq_near, toRat_gridPoint, Nat.cast_succ]
  rw [← hbelow, ← habove]
  rfl

/-- The candidate of a grid is the best of its points. -/
theorem exists_best_of_neighbour {d : Decimal} (h : neighbour? n j = some d) :
    ∃ k, d = gridPoint j k ∧ Best n j k := by
  rw [neighbour?_eq] at h
  split at h
  · next hbelow =>
    split at h
    · next habove =>
      cases h
      exact ⟨_, rfl, best_above habove.1 fun _ => (le_two_mul_mod_iff n j).mp habove.2⟩
    · next habove =>
      cases h
      refine ⟨_, rfl, best_below hbelow fun hnear => ?_⟩
      exact (not_le.mp fun hle => habove ⟨hnear, (le_two_mul_mod_iff n j).mpr hle⟩).le
  · next hbelow =>
    split at h
    · next habove =>
      cases h
      exact ⟨_, rfl, best_above habove fun hnear => absurd hnear hbelow⟩
    · cases h

/-- A grid without a candidate has no point that reads back. -/
theorem near_ne_of_neighbour (h : neighbour? n j = none) (m : Nat) : near (m * step j) ≠ n := by
  intro hm
  rw [neighbour?_eq] at h
  split at h
  · split at h <;> cases h
  · next hbelow =>
    split at h
    · cases h
    · next habove =>
      rcases mul_le_or_le_mul n j m with hle | hle
      · exact hbelow (near_below_of_le hm hle)
      · exact habove (near_above_of_le hm hle)

end Neighbours

/-! ### The search -/

/-- The search ends at the coarsest grid that has a candidate. -/
theorem coarsest_cases (candidate? : Nat → Option Decimal) (last : Decimal) (top : Nat) :
    (∃ j, j ≤ top ∧ candidate? j = some (coarsest candidate? last top) ∧
      ∀ i, j < i → i ≤ top → candidate? i = none) ∨
    (coarsest candidate? last top = last ∧ ∀ i, 0 < i → i ≤ top → candidate? i = none) := by
  induction top with
  | zero => exact .inr ⟨rfl, fun i hi hle => absurd hle (Nat.not_le.mpr hi)⟩
  | succ top ih =>
    have hextend : ∀ i, i ≤ top + 1 → candidate? (top + 1) = none →
        (i ≤ top → candidate? i = none) → candidate? i = none := fun i hle hnone hrest => by
      rcases Nat.le_succ_iff.mp hle with hle | rfl
      · exact hrest hle
      · exact hnone
    rw [coarsest]
    split
    · next d hd => exact .inl ⟨top + 1, Nat.le_refl _, hd, fun i hlt hle => by omega⟩
    · next hnone =>
      rcases ih with ⟨j, hj, hcandidate, hfiner⟩ | ⟨hlast, hfiner⟩
      · exact .inl ⟨j, Nat.le_succ_of_le hj, hcandidate,
          fun i hlt hle => hextend i hle hnone (hfiner i hlt)⟩
      · exact .inr ⟨hlast, fun i hlt hle => hextend i hle hnone (hfiner i hlt)⟩

/-- The grid that the search starts at, which is coarser than the number itself. -/
def top (n : Nat) : Nat := (Nat.toDigits 10 (exactly n)).length

theorem exactly_lt (n : Nat) : exactly n < 10 ^ top n :=
  (Nat.length_toDigits_le_iff (by decide) Nat.length_toDigits_pos).mp (Nat.le_refl _)

theorem size_lt_step_top (n : Nat) : size n < step (top n) := by
  rw [step_eq, size_eq]
  refine mul_lt_mul_of_pos_right ?_ (step_pos 0)
  exact_mod_cast exactly_lt n

/-- The best point of a grid, where no point of a coarser one reads back. -/
structure Coarsest (n j k : Nat) : Prop extends Best n j k where
  le_top : j ≤ top n
  coarser : ∀ i, j < i → i ≤ top n → ∀ m : Nat, near (m * step i) ≠ n

/-- **The shortest decimal of a number is the best point of the coarsest grid that has any.** -/
theorem exists_coarsest {n : Nat} (h : n ≠ 0) :
    ∃ j k, shortest n = gridPoint j k ∧ Coarsest n j k := by
  have hshortest : shortest n = coarsest (neighbour? n) (gridPoint 0 (exactly n)) (top n) :=
    if_neg h
  rw [hshortest]
  rcases coarsest_cases (neighbour? n) (gridPoint 0 (exactly n)) (top n) with
    ⟨j, hj, hcandidate, hnone⟩ | ⟨hlast, hnone⟩
  · obtain ⟨k, hk, hbest⟩ := exists_best_of_neighbour hcandidate
    exact ⟨j, k, hk, hbest, hj, fun i hlt hle => near_ne_of_neighbour (hnone i hlt hle)⟩
  · have hexact : Best n 0 (exactly n) := by
      refine ⟨by rw [← size_eq, near_size], fun m _ => ?_⟩
      rw [← size_eq, sub_self, abs_zero]
      exact abs_nonneg _
    exact ⟨0, exactly n, hlast, hexact, Nat.zero_le _,
      fun i hlt hle => near_ne_of_neighbour (hnone i hlt hle)⟩

end Decimal
end Calculator
