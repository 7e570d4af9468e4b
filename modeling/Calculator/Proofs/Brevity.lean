import Calculator.Proofs.Grids

/-! Why no decimal is shorter.

The coarsest grid of which a point reads back has no multiple of ten among those points, so
the best of them has no more digits than any decimal of that grid or of a coarser one, and
fewer than those of a finer one unless it has one digit (`Coarsest.digitCount_le`). With one
digit a decimal of a finer grid could be nearer, if both nine and ten times a power of ten read
back. They do for the second least of all numbers only, and there ten times the power is the
nearer one (`nineteen_mul_le`); so none with as many digits is (`Coarsest.closest_of_digitCount`).
-/
namespace Calculator

namespace Binary64

/-- Every magnitude is a significand of 53 bits at most on the scale of its last bit. -/
theorem exists_significand (n : Nat) :
    ∃ m s, n = s * 2 ^ 52 + m ∧ m < 2 ^ 53 ∧ (0 < s → 2 ^ 52 ≤ m) := by
  by_cases h : n < 2 ^ 52
  · exact ⟨n, 0, by omega, by omega, fun hs => absurd hs (lt_irrefl 0)⟩
  · have hmod : n % 2 ^ 52 < 2 ^ 52 := Nat.mod_lt _ (by decide)
    exact ⟨2 ^ 52 + n % 2 ^ 52, n / 2 ^ 52 - 1, by omega, by omega, fun _ => by omega⟩

/-- A number and its neighbours on the scale of the number's last bit. -/
theorem exists_scale (p : Nat) : ∃ m s, units (p + 1) = (m + 1) * 2 ^ s ∧
    units (p + 2) = (m + 2) * 2 ^ s ∧ m * 2 ^ s ≤ units p ∧ (0 < s → 2 ^ 52 ≤ m + 1) := by
  obtain ⟨m, s, hn, hlt, hle⟩ := exists_significand (p + 1)
  have hm : m ≠ 0 := by
    rintro rfl
    by_cases hs : 0 < s
    · exact absurd (hle hs) (by decide)
    · omega
  obtain ⟨m, rfl⟩ := Nat.exists_eq_succ_of_ne_zero hm
  refine ⟨m, s, by rw [hn, units_add hlt.le hle], ?_, ?_, hle⟩
  · have hnext : p + 2 = s * 2 ^ 52 + (m + 2) := by omega
    rw [hnext, units_add hlt fun hs => (hle hs).trans (Nat.le_succ _)]
  · by_cases hinside : 0 < s → 2 ^ 52 ≤ m
    · have hprevious : p = s * 2 ^ 52 + m := by omega
      rw [hprevious, units_add (by omega) hinside]
    · -- Below a power of two the numbers are twice as dense.
      obtain ⟨hs, hm⟩ := Classical.not_imp.mp hinside
      obtain ⟨s, rfl⟩ := Nat.exists_eq_succ_of_ne_zero hs.ne'
      have hprevious : p = s * 2 ^ 52 + (2 ^ 53 - 1) := by
        have := hle hs
        omega
      rw [hprevious, units_add (by decide) fun _ => by decide, pow_succ', ← Nat.mul_assoc]
      exact Nat.mul_le_mul_right _ (by omega)

/-- How many times the least number is contained in one: twice a power of ten, or a little more. -/
theorem one_bounds : 2 * 10 ^ 323 ≤ one ∧ 100 * one ≤ 21 * 10 ^ 324 := by
  unfold one
  decide +kernel

/-- In multiples of the least number the powers of ten are a fifth of those 324 places further on,
or a little more. -/
theorem exists_ten_zpow_mul_one : ∃ c : ℚ, 1 / 5 ≤ c ∧ c ≤ 21 / 100 ∧
    ∀ e : ℤ, (10 ^ e * one : ℚ) = 10 ^ (e + 324) * c := by
  have hpow : (0 : ℚ) < 10 ^ 323 := by positivity
  have hsucc : (10 : ℚ) ^ 324 = 10 * 10 ^ 323 := pow_succ' 10 323
  have hsplit : ∀ e : ℤ, (10 : ℚ) ^ (e + 324) = 10 ^ e * (10 * 10 ^ 323) := fun e => by
    rw [zpow_add₀ (by norm_num), zpow_ofNat, hsucc]
  have hbounds : (2 * 10 ^ 323 : ℚ) ≤ one ∧ (100 * one : ℚ) ≤ 21 * 10 ^ 324 := by
    exact_mod_cast one_bounds
  rw [hsucc] at hbounds
  generalize (10 : ℚ) ^ 323 = t at hpow hsplit hbounds
  refine ⟨one / (10 * t), ?_, ?_, fun e => ?_⟩
  · rw [le_div_iff₀ (by linarith)]
    linarith
  · rw [div_le_iff₀ (by linarith)]
    linarith
  · rw [hsplit, mul_assoc, mul_div_cancel₀ _ (by linarith)]

/-- In multiples of the least number no power of ten lies between an eighteenth and one, but
for one that is a fifth and a little more. -/
theorem ten_zpow_cases (e : ℤ) : (10 ^ e * one : ℚ) < 1 / 18 ∨ (1 : ℚ) < 10 ^ e * one ∨
    (1 / 5 : ℚ) ≤ 10 ^ e * one ∧ 10 ^ e * one ≤ (21 / 100 : ℚ) := by
  obtain ⟨c, hlower, hupper, hscale⟩ := exists_ten_zpow_mul_one
  rw [hscale]
  rcases lt_trichotomy (e + 324) 0 with hneg | hzero | hpos
  · have hle : (10 : ℚ) ^ (e + 324) ≤ 10 ^ (-1 : ℤ) := zpow_le_zpow_right₀ (by norm_num) (by omega)
    rw [zpow_neg_one] at hle
    exact .inl (by nlinarith)
  · rw [hzero, zpow_zero, one_mul]
    exact .inr (.inr ⟨by linarith, by linarith⟩)
  · have hle : (10 : ℚ) ^ (1 : ℤ) ≤ 10 ^ (e + 324) := zpow_le_zpow_right₀ (by norm_num) (by omega)
    rw [zpow_one] at hle
    exact .inr (.inl (by nlinarith))

/-- Where nine and ten times a power of ten have the same number nearest to them, the number is
one of the first, on the scale of the least of all. -/
theorem scale_eq_zero_of_close {m s : Nat} {t : ℚ} (hs : 0 < s → 2 ^ 52 ≤ m + 1)
    (hupper : 20 * t ≤ (2 * m + 3) * 2 ^ s) (hlower : (2 * m + 1) * 2 ^ s ≤ 18 * t) :
    s = 0 ∧ m ≤ 8 := by
  have hlast : (0 : ℚ) < 2 ^ s := by positivity
  have hle : (10 * (2 * m + 1) : ℚ) * 2 ^ s ≤ 9 * (2 * m + 3) * 2 ^ s := by linarith
  have hle' : 10 * (2 * m + 1) ≤ 9 * (2 * m + 3) := by
    exact_mod_cast le_of_mul_le_mul_right hle hlast
  have hsmall : m ≤ 8 := by omega
  refine ⟨?_, hsmall⟩
  by_contra hne
  have := hs (Nat.pos_of_ne_zero hne)
  omega

/-- Where nine and ten times a power of ten have the same number nearest to them, that number
is no nearer to the first of them. There is but one such number, the second least. -/
theorem nineteen_mul_le {n : Nat} {e : ℤ} (hn : n ≠ 0) (hnine : near (9 * 10 ^ e) = n)
    (hten : near (10 * 10 ^ e) = n) : 19 * 10 ^ e ≤ 2 * size n := by
  obtain ⟨p, rfl⟩ := Nat.exists_eq_succ_of_ne_zero hn
  obtain ⟨m, s, hunits, hnext, hprevious, hs⟩ := exists_scale p
  have hone : (0 : ℚ) < one := Nat.cast_pos.mpr one_pos
  have hpow : (0 : ℚ) < 10 ^ e := zpow_pos (by norm_num) e
  have hsize : ∀ k, size k * one = units k := fun k => div_mul_cancel₀ _ hone.ne'
  have hscale : ∀ {a b : ℚ}, a ≤ b → a * one ≤ b * one := fun h =>
    mul_le_mul_of_nonneg_right h hone.le
  -- What is nearest to a number lies between the middles to its neighbours.
  have hupper := hscale (two_mul_le_of_near (by linarith) hten (Nat.lt_succ_self (p + 1)))
  have hlower := hscale (le_two_mul_of_near (by linarith) hnine (Nat.lt_succ_self p))
  have hprevious : (m : ℚ) * 2 ^ s ≤ units p := by exact_mod_cast hprevious
  rw [add_mul, hsize, hsize, hunits, hnext] at hupper
  rw [add_mul, hsize, hsize, hunits] at hlower
  refine le_of_mul_le_mul_right ?_ hone
  rw [mul_assoc, mul_assoc, hsize, hunits]
  have hmul : ∀ a : ℚ, 2 * (a * 10 ^ e) * one = 2 * a * (10 ^ e * one) := fun a => by ring
  rw [hmul] at hupper hlower
  have hcases := ten_zpow_cases e
  push_cast at hupper hlower ⊢
  generalize (10 ^ e * one : ℚ) = t at hcases hupper hlower ⊢
  obtain ⟨rfl, hsmall⟩ := scale_eq_zero_of_close hs (by linarith) (by linarith)
  have hm : (m : ℚ) ≤ 8 := by exact_mod_cast hsmall
  have hm' : (0 : ℚ) ≤ m := Nat.cast_nonneg m
  rw [pow_zero] at hprevious hupper hlower ⊢
  rcases hcases with hsmall | hlarge | ⟨hfifth, hle⟩
  · linarith
  · linarith
  · have hpos : m ≠ 0 := by
      rintro rfl
      push_cast at hupper
      linarith
    have hone : (1 : ℚ) ≤ m := by exact_mod_cast Nat.pos_of_ne_zero hpos
    linarith

end Binary64

namespace Decimal
open Binary64 (near near_mono near_of_between near_size size)

/-! ### Lengths -/

/-- The number of digits. -/
def digitCount (m : Nat) : Nat := (Nat.toDigits 10 m).length

theorem digitCount_pos (m : Nat) : 0 < digitCount m := Nat.length_toDigits_pos

theorem digitCount_le_iff {m l : Nat} (h : 0 < l) : digitCount m ≤ l ↔ m < 10 ^ l :=
  Nat.length_toDigits_le_iff (by decide) h

theorem digitCount_of_lt {m : Nat} (h : m < 10) : digitCount m = 1 := by
  rw [digitCount, Nat.toDigits_of_lt_base h, List.length_singleton]

theorem digitCount_of_le {m : Nat} (h : 10 ≤ m) : digitCount m = digitCount (m / 10) + 1 := by
  rw [digitCount, Nat.toDigits_of_base_le (by decide) h, List.length_append, List.length_singleton,
    digitCount]

/-- What is more than a hundred times the tens of a number has more digits than it. -/
theorem digitCount_lt {k m : Nat} (hk : 10 ≤ k) (h : 100 * (k / 10) < m) :
    digitCount k < digitCount m := by
  have hm := (digitCount_le_iff (digitCount_pos m)).mp (Nat.le_refl _)
  have htwo : 2 ≤ digitCount m := by
    by_contra hshort
    have hone : digitCount m = 1 := by
      have := digitCount_pos m
      omega
    rw [hone] at hm
    omega
  obtain ⟨l, hl⟩ := Nat.exists_eq_add_of_le' htwo
  rw [hl, pow_succ, pow_succ] at hm
  rw [hl]
  refine Nat.lt_succ_of_le ((digitCount_le_iff (Nat.succ_pos l)).mpr ?_)
  rw [pow_succ]
  omega

/-! ### Other decimals -/

namespace Coarsest
variable {n j k : Nat}

theorem ne_zero (h : Coarsest n j k) (hn : n ≠ 0) : k ≠ 0 := by
  rintro rfl
  have hnear := h.near_eq
  rw [Nat.cast_zero, zero_mul, Binary64.near_of_nonpos (le_refl 0)] at hnear
  exact hn hnear.symm

theorem step_le (h : Coarsest n j k) (hn : n ≠ 0) : step j ≤ k * step j := by
  have hk : (1 : ℚ) ≤ k := by exact_mod_cast Nat.pos_of_ne_zero (h.ne_zero hn)
  exact le_mul_of_one_le_left (step_pos j).le hk

/-- On the grid where the search starts, the best point is the first. -/
theorem lt_top (h : Coarsest n j k) (hk : 10 ≤ k) : j < top n := by
  refine lt_of_le_of_ne h.le_top ?_
  rintro rfl
  have hlt := size_lt_step_top n
  have hpos := step_pos (top n)
  have hk' : (10 : ℚ) ≤ k := by exact_mod_cast hk
  have hle : 10 * step (top n) ≤ k * step (top n) := mul_le_mul_of_nonneg_right hk' hpos.le
  have hnear : near ((1 : ℕ) * step (top n)) = n := by
    rw [Nat.cast_one, one_mul]
    exact near_of_between (near_size n) h.near_eq hlt.le (by linarith)
  have hclosest := h.closest 1 hnear
  rw [Nat.cast_one, one_mul, abs_of_pos (by linarith), abs_of_pos (by linarith)] at hclosest
  linarith

/-- No point of the next coarser grid lies among what reads back. -/
theorem not_between (h : Coarsest n j k) (hj : j < top n) {a b : ℚ} {q : Nat} (ha : near a = n)
    (hb : near b = n) (hle : a ≤ q * step (j + 1)) : b < q * step (j + 1) := by
  by_contra hge
  exact h.coarser (j + 1) (Nat.lt_succ_self j) hj q (near_of_between ha hb hle (not_lt.mp hge))

theorem not_tens_between (h : Coarsest n j k) (hj : j < top n) {a b q : Nat}
    (ha : near (a * step j) = n) (hb : near (b * step j) = n) (hle : a ≤ 10 * q) : b < 10 * q := by
  have hpoint : (q * step (j + 1) : ℚ) = (10 * q : ℕ) * step j := by
    rw [step_succ, Nat.cast_mul, Nat.cast_ofNat]
    ring
  have hle' : a * step j ≤ q * step (j + 1) := by
    rw [hpoint]
    exact mul_le_mul_of_nonneg_right (Nat.cast_le.mpr hle) (step_pos j).le
  have hlt := h.not_between hj ha hb hle'
  rw [hpoint, mul_lt_mul_iff_left₀ (step_pos j)] at hlt
  exact_mod_cast hlt

/-- All points of the grid that read back have the same digits but for the last. -/
theorem div_ten_eq (h : Coarsest n j k) (hj : j < top n) {m : Nat} (hm : near (m * step j) = n) :
    m / 10 = k / 10 := by
  rcases lt_trichotomy (m / 10) (k / 10) with hlt | heq | hlt
  · have := h.not_tens_between hj hm h.near_eq (q := k / 10) (by omega)
    omega
  · exact heq
  · have := h.not_tens_between hj h.near_eq hm (q := m / 10) (by omega)
    omega

/-- The last digit is not a zero. -/
theorem mod_ten_ne_zero (h : Coarsest n j k) (hn : n ≠ 0) : k % 10 ≠ 0 := by
  intro hmod
  have hk : 10 ≤ k := by
    have := h.ne_zero hn
    omega
  have := h.not_tens_between (h.lt_top hk) h.near_eq h.near_eq (q := k / 10) (by omega)
  omega

/-! A decimal that reads back lies on the grid, on a coarser one, or on a finer one. -/

/-- Points of the grid, and of coarser ones, have no fewer digits. -/
theorem digitCount_le_of_grid (h : Coarsest n j k) {m i : Nat}
    (hm : near ((m * 10 ^ i : ℕ) * step j) = n) : digitCount k ≤ digitCount m := by
  by_cases hk : k < 10
  · rw [digitCount_of_lt hk]
    exact digitCount_pos m
  have hten : 10 ≤ k := Nat.not_lt.mp hk
  have htens := h.div_ten_eq (h.lt_top hten) hm
  cases i with
  | zero =>
    rw [pow_zero, Nat.mul_one] at htens
    rw [digitCount_of_le hten, digitCount_of_le (by omega : 10 ≤ m), htens]
  | succ i =>
    rw [pow_succ, ← Nat.mul_assoc] at hm
    have := h.not_tens_between (h.lt_top hten) hm hm (q := m * 10 ^ i) (by omega)
    omega

/-- Points between those of the grid have more digits, if there is more than one. -/
theorem digitCount_lt_of_finer (h : Coarsest n j k) (hk : 10 ≤ k) {m : Nat} {y : ℚ}
    (hy : near y = n) (hle : 10 * y ≤ m * step j) : digitCount k < digitCount m := by
  have hpos := step_pos j
  refine digitCount_lt hk ?_
  by_contra hfew
  have htens : ((k / 10 : ℕ) : ℚ) * 10 ≤ k := by exact_mod_cast Nat.div_mul_le_self k 10
  have hfew : (m : ℚ) ≤ 100 * (k / 10 : ℕ) := by exact_mod_cast Nat.not_lt.mp hfew
  have hm := mul_le_mul_of_nonneg_right hfew hpos.le
  have hle' : y ≤ (k / 10 : ℕ) * step (j + 1) := by
    rw [step_succ]
    linarith
  have hlt := h.not_between (h.lt_top hk) hy h.near_eq hle'
  rw [step_succ] at hlt
  have := mul_le_mul_of_nonneg_right htens hpos.le
  linarith

/-- With one digit none of them is nearer. -/
theorem closest_of_finer (h : Coarsest n j k) (hn : n ≠ 0) {y : ℚ} (hy : near y = n)
    (hle : 10 * y ≤ 9 * step j) : |k * step j - size n| ≤ |y - size n| := by
  have hpos := step_pos j
  have hstep : step j = 10 * 10 ^ ((j : ℤ) - 1074 - 1) := by
    rw [step, mul_comm, ← zpow_add_one₀ (by norm_num), sub_add_cancel]
  have hone : near (step j) = n :=
    near_of_between hy h.near_eq (by linarith) (h.step_le hn)
  have hclosest := h.closest 1 (by rwa [Nat.cast_one, one_mul])
  rw [Nat.cast_one, one_mul] at hclosest
  refine hclosest.trans ?_
  rw [hstep] at hone hpos hle ⊢
  have hnine := near_of_between hy hone (b := 9 * 10 ^ ((j : ℤ) - 1074 - 1)) (by linarith)
    (by linarith)
  have hnearer := Binary64.nineteen_mul_le hn hnine hone
  generalize (10 : ℚ) ^ ((j : ℤ) - 1074 - 1) = t at hnearer hpos hle ⊢
  rw [abs_sub_comm y, abs_of_pos (by linarith : 0 < size n - y)]
  exact abs_le.mpr ⟨by linarith, by linarith⟩

/-- A decimal lies on the grid or a coarser one, or else on a finer one. -/
theorem exists_grid_or_le (m : Nat) (e : ℤ) (j : Nat) :
    (∃ i, (m * 10 ^ e : ℚ) = (m * 10 ^ i : ℕ) * step j) ∨ 10 * (m * 10 ^ e : ℚ) ≤ m * step j := by
  rcases lt_or_ge e ((j : ℤ) - 1074) with hlt | hge
  · refine .inr ?_
    have hle : (10 : ℚ) ^ (e + 1) ≤ step j := zpow_le_zpow_right₀ (by norm_num) (by omega)
    rw [zpow_add_one₀ (by norm_num)] at hle
    have := mul_le_mul_of_nonneg_left hle (Nat.cast_nonneg m : (0 : ℚ) ≤ m)
    linarith
  · obtain ⟨i, hi⟩ := Int.le.dest hge
    refine .inl ⟨i, ?_⟩
    rw [← hi, zpow_add₀ (by norm_num), zpow_natCast, step, Nat.cast_mul, Nat.cast_pow,
      Nat.cast_ofNat]
    ring

/-- **No decimal that reads back has fewer digits.** -/
theorem digitCount_le (h : Coarsest n j k) {m : Nat} {e : ℤ} (hm : near (m * 10 ^ e) = n) :
    digitCount k ≤ digitCount m := by
  rcases exists_grid_or_le m e j with ⟨i, hgrid⟩ | hfiner
  · rw [hgrid] at hm
    exact h.digitCount_le_of_grid hm
  · by_cases hk : k < 10
    · rw [digitCount_of_lt hk]
      exact digitCount_pos m
    · exact (h.digitCount_lt_of_finer (Nat.not_lt.mp hk) hm hfiner).le

/-- **Of those with as many digits none is nearer.** -/
theorem closest_of_digitCount (h : Coarsest n j k) (hn : n ≠ 0) {m : Nat} {e : ℤ}
    (hm : near (m * 10 ^ e) = n) (hcount : digitCount m = digitCount k) :
    |k * step j - size n| ≤ |m * 10 ^ e - size n| := by
  rcases exists_grid_or_le m e j with ⟨i, hgrid⟩ | hfiner
  · rw [hgrid] at hm ⊢
    exact h.closest _ hm
  · have hk : k < 10 := by
      by_contra hten
      have := h.digitCount_lt_of_finer (Nat.not_lt.mp hten) hm hfiner
      omega
    refine h.closest_of_finer hn hm (hfiner.trans ?_)
    have hdigit : m < 10 ^ 1 := (digitCount_le_iff one_pos).mp (by rw [hcount, digitCount_of_lt hk])
    have hnine : (m : ℚ) ≤ 9 := by exact_mod_cast Nat.le_of_lt_succ hdigit
    exact mul_le_mul_of_nonneg_right hnine (step_pos j).le

end Coarsest
end Decimal

end Calculator
