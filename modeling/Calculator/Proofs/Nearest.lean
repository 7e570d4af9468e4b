import Calculator.Proofs.Bits
import Calculator.Proofs.Rounding

/-! The nearest number.

Of all numbers, `nearest` finds the one closest to a quotient, and of two equally close the
even one (`nearest_beats`). The numbers beyond the finite ones count here as if there were no
end to them, and so a quotient is too large just from halfway between the last finite number
and the next on (`nearest_lt_infinity_iff`). -/
namespace Calculator.Binary64

/-! ### The nearest integer -/

section Integers
variable {num den : Nat}

/-- A quotient lies between two integers, and rounding decides for the nearer one or, halfway
between them, for the even one. -/
theorem exists_fraction (h : 0 < den) (num : Nat) :
    ∃ (whole : Nat) (f : ℚ), (num / den : ℚ) = whole + f ∧ 0 ≤ f ∧ f < 1 ∧
      (roundHalfEven num den = whole ∧ f ≤ 1 / 2 ∧ (f = 1 / 2 → whole % 2 = 0) ∨
        roundHalfEven num den = whole + 1 ∧ 1 / 2 ≤ f ∧ (f = 1 / 2 → (whole + 1) % 2 = 0)) := by
  have hden : (0 : ℚ) < den := Nat.cast_pos.mpr h
  have hmod : num % den < den := Nat.mod_lt _ h
  have hnum : (num : ℚ) = (num / den : ℕ) * den + (num % den : ℕ) := by
    exact_mod_cast (Nat.div_add_mod' num den).symm
  have hhalf : ∀ r : ℕ, (r / den : ℚ) ≤ 1 / 2 ↔ 2 * r ≤ den := fun r => by
    rw [div_le_div_iff₀ hden two_pos]
    constructor <;> intro h
    · exact_mod_cast (by linarith : (2 * r : ℚ) ≤ den)
    · have : (2 * r : ℚ) ≤ den := by exact_mod_cast h
      linarith
  have hhalf' : ∀ r : ℕ, (1 / 2 : ℚ) ≤ r / den ↔ den ≤ 2 * r := fun r => by
    rw [div_le_div_iff₀ two_pos hden]
    constructor <;> intro h
    · exact_mod_cast (by linarith : (den : ℚ) ≤ 2 * r)
    · have : (den : ℚ) ≤ 2 * r := by exact_mod_cast h
      linarith
  refine ⟨num / den, (num % den : ℕ) / den, ?_, by positivity, ?_, ?_⟩
  · rw [hnum, add_div, mul_div_cancel_right₀ _ hden.ne']
  · rw [div_lt_one hden]
    exact_mod_cast hmod
  · have htie : ((num % den : ℕ) / den : ℚ) = 1 / 2 → 2 * (num % den) = den := fun heq =>
      le_antisymm ((hhalf _).mp heq.le) ((hhalf' _).mp heq.ge)
    rw [hhalf, hhalf']
    unfold roundHalfEven
    dsimp only
    split
    · next hdown => exact .inl ⟨rfl, by omega, fun heq => by have := htie heq; omega⟩
    · next hup => exact .inr ⟨rfl, by omega, fun heq => by have := htie heq; omega⟩

/-- **No integer is nearer to a quotient than the one it is rounded to**, and if another is as
near, that one is even. -/
theorem roundHalfEven_beats (h : 0 < den) {k : Nat} (hk : k ≠ roundHalfEven num den) :
    |(roundHalfEven num den : ℚ) - num / den| < |(k : ℚ) - num / den| ∨
      |(roundHalfEven num den : ℚ) - num / den| = |(k : ℚ) - num / den| ∧
        roundHalfEven num den % 2 = 0 := by
  obtain ⟨whole, f, hquot, hf, hf', hcases⟩ := exists_fraction h num
  have hside : (k : ℚ) ≤ whole ∨ (whole + 1 : ℚ) ≤ k := by
    rcases Nat.lt_or_ge whole k with h | h
    · exact .inr (by exact_mod_cast h)
    · exact .inl (by exact_mod_cast h)
  have hne : (k : ℚ) ≠ roundHalfEven num den := by exact_mod_cast hk
  rw [hquot]
  rcases hcases with ⟨hround, hle, heven⟩ | ⟨hround, hle, heven⟩ <;> rw [hround] at hne ⊢
  · -- Downwards, and `k` is elsewhere.
    have hdist : |(whole : ℚ) - (whole + f)| = f := by
      rw [sub_add_cancel_left, abs_neg, abs_of_nonneg hf]
    rw [hdist]
    rcases hside with hbelow | habove
    · have hbelow' : (k : ℚ) + 1 ≤ whole := by
        have hlt : k < whole := by exact_mod_cast lt_of_le_of_ne hbelow hne
        exact_mod_cast hlt
      rw [abs_of_nonpos (by linarith)]
      exact .inl (by linarith)
    · rw [abs_of_nonneg (by linarith)]
      rcases (by linarith : f ≤ k - (whole + f)).lt_or_eq with hlt | heq
      · exact .inl hlt
      · exact .inr ⟨heq, heven (by linarith)⟩
  · have hdist : |((whole + 1 : ℕ) : ℚ) - (whole + f)| = 1 - f := by
      rw [Nat.cast_succ, add_sub_add_left_eq_sub, abs_of_nonneg (by linarith)]
    rw [hdist]
    rcases hside with hbelow | habove
    · rw [abs_of_nonpos (by linarith)]
      rcases (by linarith : 1 - f ≤ -(k - (whole + f))).lt_or_eq with hlt | heq
      · exact .inl hlt
      · exact .inr ⟨heq, heven (by linarith)⟩
    · have habove' : (whole : ℚ) + 2 ≤ k := by
        rw [Nat.cast_succ] at hne
        have hlt : whole + 1 < k := by exact_mod_cast lt_of_le_of_ne habove (Ne.symm hne)
        exact_mod_cast hlt
      rw [abs_of_nonneg (by linarith)]
      exact .inl (by linarith)

/-- So it is on the scale of a power of two. -/
theorem roundHalfEven_beats_scaled (h : 0 < den) (s : Nat) {k : Nat}
    (hk : k ≠ roundHalfEven num (den * 2 ^ s)) :
    |((roundHalfEven num (den * 2 ^ s) * 2 ^ s : ℕ) : ℚ) - num / den| <
        |((k * 2 ^ s : ℕ) : ℚ) - num / den| ∨
      |((roundHalfEven num (den * 2 ^ s) * 2 ^ s : ℕ) : ℚ) - num / den| =
          |((k * 2 ^ s : ℕ) : ℚ) - num / den| ∧
        roundHalfEven num (den * 2 ^ s) % 2 = 0 := by
  have hpow : (0 : ℚ) < 2 ^ s := by positivity
  have hden : (0 : ℚ) < den := Nat.cast_pos.mpr h
  have hscale : ∀ m : Nat, |((m * 2 ^ s : ℕ) : ℚ) - num / den| =
      |(m : ℚ) - num / ((den * 2 ^ s : ℕ) : ℚ)| * 2 ^ s := fun m => by
    have hmul : ((m * 2 ^ s : ℕ) : ℚ) - num / den =
        (m - num / ((den * 2 ^ s : ℕ) : ℚ)) * 2 ^ s := by
      push_cast
      field_simp
    rw [hmul, abs_mul, abs_of_pos hpow]
  rw [hscale, hscale, mul_lt_mul_iff_left₀ hpow, mul_left_inj' hpow.ne']
  exact roundHalfEven_beats (Nat.mul_pos h (Nat.two_pow_pos s)) hk

end Integers

/-! ### The order of the numbers -/

theorem units_lt_succ (n : Nat) : units n < units (n + 1) := by
  by_cases hsmall : n + 1 < 2 ^ 52
  · rw [units_of_lt hsmall, units_of_lt (by omega)]
    exact Nat.lt_succ_self n
  by_cases hfirst : n < 2 ^ 52
  · have hn : n + 1 = 2 ^ 52 := by omega
    rw [units_of_lt hfirst, hn]
    have : units (2 ^ 52) = 2 ^ 52 := rfl
    omega
  have hle : 2 ^ 52 ≤ n := Nat.not_lt.mp hfirst
  rw [units_of_le hle, units_of_le (hle.trans (Nat.le_succ n))]
  by_cases hcarry : n % 2 ^ 52 + 1 = 2 ^ 52
  · have hmod : (n + 1) % 2 ^ 52 = 0 := by omega
    have hdiv : (n + 1) / 2 ^ 52 - 1 = n / 2 ^ 52 - 1 + 1 := by omega
    rw [hmod, hdiv]
    generalize n / 2 ^ 52 - 1 = e
    calc (2 ^ 52 + n % 2 ^ 52) * 2 ^ e < 2 ^ 53 * 2 ^ e :=
          Nat.mul_lt_mul_of_pos_right (by omega) (Nat.two_pow_pos e)
      _ = (2 ^ 52 + 0) * 2 ^ (e + 1) := by ring
  · have hmod : (n + 1) % 2 ^ 52 = n % 2 ^ 52 + 1 := by omega
    have hdiv : (n + 1) / 2 ^ 52 = n / 2 ^ 52 := by omega
    rw [hmod, hdiv]
    exact Nat.mul_lt_mul_of_pos_right (by omega) (Nat.two_pow_pos _)

/-- Larger magnitudes are larger numbers. -/
theorem units_strictMono : StrictMono units := strictMono_nat_of_lt_succ units_lt_succ

/-- A multiple of a power of two with 53 bits, or with fewer of the least power, is a number. -/
theorem units_add {m s : Nat} (hm : m ≤ 2 ^ 53) (hs : 0 < s → 2 ^ 52 ≤ m) :
    units (s * 2 ^ 52 + m) = m * 2 ^ s := by
  by_cases hsmall : m < 2 ^ 52
  · obtain rfl : s = 0 := by
      by_contra hne
      exact absurd (hs (Nat.pos_of_ne_zero hne)) (Nat.not_le.mpr hsmall)
    rw [Nat.zero_mul, Nat.zero_add, units_of_lt hsmall, Nat.pow_zero, Nat.mul_one]
  have hle : 2 ^ 52 ≤ m := Nat.not_lt.mp hsmall
  rw [units_of_le (by omega)]
  by_cases hcarry : m = 2 ^ 53
  · have hmod : (s * 2 ^ 52 + m) % 2 ^ 52 = 0 := by omega
    have hdiv : (s * 2 ^ 52 + m) / 2 ^ 52 - 1 = s + 1 := by omega
    rw [hmod, hdiv, hcarry, Nat.add_zero, Nat.pow_succ 2 s, Nat.pow_succ 2 52]
    ring
  · have hmod : 2 ^ 52 + (s * 2 ^ 52 + m) % 2 ^ 52 = m := by omega
    have hdiv : (s * 2 ^ 52 + m) / 2 ^ 52 - 1 = s := by omega
    rw [hmod, hdiv]

/-- On the scale of a power of two a number is either a multiple or has too few bits for it. -/
theorem units_cases (n s : Nat) : (∃ k, units n = k * 2 ^ s) ∨
    0 < s ∧ units n < 2 ^ 52 * 2 ^ s := by
  obtain ⟨m, t, hunits, hlog, -⟩ := units_eq_mul n
  rcases Nat.lt_or_ge t s with hlt | hle
  · refine .inr ⟨Nat.zero_lt_of_lt hlt, ?_⟩
    calc units n < 2 ^ ((units n).log2 + 1) := Nat.lt_log2_self
      _ ≤ 2 ^ (52 + s) := Nat.pow_le_pow_right two_pos (by omega)
      _ = 2 ^ 52 * 2 ^ s := Nat.pow_add 2 52 s
  · refine .inl ⟨m * 2 ^ (t - s), ?_⟩
    rw [hunits, Nat.mul_assoc, ← Nat.pow_add, Nat.sub_add_cancel hle]

/-! ### The nearest number -/

section Quotients
variable {num den : Nat}

/-- Halved as often as it is, a quotient has 53 bits at most, and as many if it is halved. -/
theorem halved_bounds (num den : Nat) :
    num * one / den / 2 ^ halvings num den < 2 ^ 53 ∧
      (0 < halvings num den → 2 ^ 52 ≤ num * one / den / 2 ^ halvings num den) := by
  unfold halvings
  generalize num * one / den = w
  constructor
  · rw [Nat.div_lt_iff_lt_mul (Nat.two_pow_pos _), ← Nat.pow_add]
    exact Nat.lt_log2_self.trans_le (Nat.pow_le_pow_right two_pos (by omega))
  · intro hs
    have hw : w ≠ 0 := by
      rintro rfl
      exact absurd hs (by decide)
    rw [Nat.le_div_iff_mul_le (Nat.two_pow_pos _), ← Nat.pow_add]
    exact (Nat.pow_le_pow_right two_pos (by omega)).trans (Nat.log2_self_le hw)

theorem roundHalfEven_bounds (num den : Nat) :
    num / den ≤ roundHalfEven num den ∧ roundHalfEven num den ≤ num / den + 1 := by
  unfold roundHalfEven
  dsimp only
  split <;> omega

/-- The number nearest to a quotient is what the quotient, halved, is rounded to. -/
theorem units_nearest (num den : Nat) :
    units (nearest num den) =
      roundHalfEven (num * one) (den * 2 ^ halvings num den) * 2 ^ halvings num den := by
  obtain ⟨hlt, hge⟩ := halved_bounds num den
  rw [Nat.div_div_eq_div_mul] at hlt hge
  have hround := roundHalfEven_bounds (num * one) (den * 2 ^ halvings num den)
  rw [nearest_eq]
  exact units_add (by omega) fun hs => (hge hs).trans hround.1

/-- Of what a quotient reaches, the larger is the nearer. -/
theorem abs_sub_lt_of_lt_of_le {a b : Nat} (hab : a < b) (hb : b ≤ num / den) :
    |(b : ℚ) - num / den| < |(a : ℚ) - num / den| := by
  have hb : (b : ℚ) ≤ num / den := (Nat.cast_le.mpr hb).trans Nat.cast_div_le
  have hab : (a : ℚ) < b := Nat.cast_lt.mpr hab
  rw [abs_sub_comm, abs_of_nonneg (sub_nonneg.mpr hb), abs_sub_comm,
    abs_of_nonneg (sub_nonneg.mpr (hab.le.trans hb))]
  exact sub_lt_sub_left hab _

/-- **No number is nearer to a quotient than the nearest**, and if another is as near, that one
is even. -/
theorem nearest_beats (h : 0 < den) {n : Nat} (hn : n ≠ nearest num den) :
    |(units (nearest num den) : ℚ) - (num * one : ℕ) / den| <
        |(units n : ℚ) - (num * one : ℕ) / den| ∨
      |(units (nearest num den) : ℚ) - (num * one : ℕ) / den| =
          |(units n : ℚ) - (num * one : ℕ) / den| ∧
        nearest num den % 2 = 0 := by
  have hne : units n ≠ units (nearest num den) := fun heq => hn (units_strictMono.injective heq)
  have heven : nearest num den % 2 =
      roundHalfEven (num * one) (den * 2 ^ halvings num den) % 2 := by
    rw [nearest_eq]
    omega
  have hbound := (halved_bounds num den).2
  rw [units_nearest] at hne ⊢
  rw [heven]
  generalize halvings num den = s at hne hbound ⊢
  rcases units_cases n s with ⟨k, hk⟩ | ⟨hs, hsmall⟩
  · rw [hk] at hne ⊢
    exact roundHalfEven_beats_scaled h s fun heq => hne (by rw [heq])
  · -- The power of two itself lies between such a number and the quotient.
    have hpower := (Nat.le_div_iff_mul_le (Nat.two_pow_pos s)).mp (hbound hs)
    refine .inl (lt_of_le_of_lt ?_ (abs_sub_lt_of_lt_of_le hsmall hpower))
    by_cases heq : 2 ^ 52 = roundHalfEven (num * one) (den * 2 ^ s)
    · rw [heq]
    · exact (roundHalfEven_beats_scaled h s heq).elim le_of_lt fun htie => htie.1.le

/-! ### Too large -/

theorem cast_one : (one : ℚ) = 2 ^ 1074 := by
  have hpow : ∀ e, ((Nat.pow 2 e : ℕ) : ℚ) = 2 ^ e := fun e => Nat.cast_pow 2 e
  unfold one
  generalize 1074 = e
  exact hpow e

/-- What is too large starts in the middle between the last finite number and infinity, as if
that were a number. -/
theorem units_add_units_infinity :
    (units (infinity - 1) + units infinity : ℚ) = 2 * ((2 ^ 1024 - 2 ^ 970) * one) := by
  have hlast : infinity - 1 = 2045 * 2 ^ 52 + (2 ^ 53 - 1) := rfl
  have hnext : infinity = 2045 * 2 ^ 52 + 2 ^ 53 := rfl
  have hstep : (2 : ℚ) ^ 2045 = 2 * (2 ^ 970 * one) := by
    rw [cast_one, ← pow_add, ← pow_succ']
  have hsplit : (2 : ℚ) ^ 1024 = 2 ^ 54 * 2 ^ 970 := by rw [← pow_add]
  have hunits : (units (infinity - 1) : ℚ) = (2 ^ 53 - 1) * 2 ^ 2045 := by
    rw [hlast, units_add (by decide) fun _ => by decide, Nat.cast_mul, Nat.cast_pow,
      Nat.cast_sub Nat.one_le_two_pow, Nat.cast_pow, Nat.cast_two, Nat.cast_one]
  have hunits' : (units infinity : ℚ) = 2 ^ 53 * 2 ^ 2045 := by
    rw [hnext, units_add (Nat.le_refl _) fun _ => by decide, Nat.cast_mul, Nat.cast_pow,
      Nat.cast_pow, Nat.cast_two]
  rw [hunits, hunits', hstep, hsplit]
  generalize (2 ^ 970 : ℚ) = p
  ring

/-- Beyond the middle the upper number is as near as any below it, and nearer than any but the
lower one. -/
theorem abs_upper_sub_le {lower upper u x : ℚ} (hu : u ≤ lower) (hlt : lower < upper)
    (hx : lower + upper ≤ 2 * x) :
    |upper - x| ≤ |u - x| ∧ (|u - x| = |upper - x| → u = lower) := by
  rw [abs_of_nonpos (by linarith : u - x ≤ 0)]
  rcases abs_cases (upper - x) with ⟨habs, -⟩ | ⟨habs, -⟩ <;> rw [habs]
  · exact ⟨by linarith, fun heq => by linarith⟩
  · exact ⟨by linarith, fun heq => by linarith⟩

theorem abs_lower_sub_lt {lower upper u x : ℚ} (hu : upper ≤ u) (hlt : lower < upper)
    (hx : 2 * x < lower + upper) : |lower - x| < |u - x| := by
  rw [abs_of_nonneg (by linarith : 0 ≤ u - x)]
  exact abs_lt.mpr ⟨by linarith, by linarith⟩

/-- **A quotient is nearest to a finite number if it is less than halfway from the last of them
to the next power of two.** -/
theorem nearest_lt_infinity_iff (h : 0 < den) :
    nearest num den < infinity ↔ (num / den : ℚ) < 2 ^ 1024 - 2 ^ 970 := by
  have hone : (0 : ℚ) < one := Nat.cast_pos.mpr one_pos
  have hmiddle := units_add_units_infinity
  have hlt : (units (infinity - 1) : ℚ) < units infinity :=
    Nat.cast_lt.mpr (units_strictMono (by decide))
  rw [← mul_lt_mul_iff_left₀ hone, div_mul_eq_mul_div, ← Nat.cast_mul]
  generalize ((2 : ℚ) ^ 1024 - 2 ^ 970) * one = middle at hmiddle ⊢
  constructor
  · intro hn
    by_contra hlarge
    have hle : (units (nearest num den) : ℚ) ≤ units (infinity - 1) :=
      Nat.cast_le.mpr (units_strictMono.monotone (Nat.le_pred_of_lt hn))
    obtain ⟨hnear, hsame⟩ := abs_upper_sub_le hle hlt (by linarith)
    rcases nearest_beats h hn.ne' with hbeats | ⟨htie, heven⟩
    · exact absurd hnear (not_le.mpr hbeats)
    · -- Of the two that are as near, the last finite number is odd.
      rw [units_strictMono.injective (Nat.cast_injective (hsame htie))] at heven
      revert heven
      decide
  · intro hsmall
    by_contra hn
    have hle : (units infinity : ℚ) ≤ units (nearest num den) :=
      Nat.cast_le.mpr (units_strictMono.monotone (Nat.not_lt.mp hn))
    have hne : infinity - 1 ≠ nearest num den := by
      have hpos : 0 < infinity := by decide
      omega
    have hlower := abs_lower_sub_lt hle hlt (by linarith)
    exact (nearest_beats h hne).elim (fun hbeats => lt_asymm hbeats hlower)
      fun htie => hlower.ne' htie.1

end Quotients

end Calculator.Binary64
