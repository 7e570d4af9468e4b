import Calculator.Proofs.Brevity
import Calculator.Proofs.Literals
import Calculator.Proofs.Signs

/-! What a displayed number looks like.

A number is displayed in `Positional` notation behind its sign. If it is whole and below
`10 ^ 15`, it is written exactly and with one zero behind the point. Any other number is shown
by a decimal that rounds to it, and among all of these by one that has the fewest significant
digits and is the nearest of those with as few (`Shortest`); it has a point if and only if the
number is not whole (`valueText_shortest`). -/
namespace Calculator

/-! ### Whole numbers -/

namespace Binary64

theorem one_eq : one = 2 ^ 1074 := by
  unfold one
  generalize 1074 = e
  rfl

/-- Every natural number of at most 53 bits is a number. -/
theorem exists_size_eq {m : Nat} (h : m < 2 ^ 53) : ∃ p, size p = m := by
  by_cases hm : m = 0
  · exact ⟨0, by rw [hm, size_zero, Nat.cast_zero]⟩
  have hlog : m.log2 ≤ 52 := Nat.lt_succ_iff.mp ((Nat.log2_lt hm).mpr h)
  obtain ⟨a, ha⟩ := Nat.exists_eq_add_of_le hlog
  have hlower : 2 ^ 52 ≤ m * 2 ^ a := by
    rw [ha, pow_add]
    exact Nat.mul_le_mul_right _ (Nat.log2_self_le hm)
  have hupper : m * 2 ^ a ≤ 2 ^ 53 := by
    rw [(by omega : 53 = m.log2 + 1 + a), pow_add _ (m.log2 + 1)]
    exact Nat.mul_le_mul_right _ Nat.lt_log2_self.le
  obtain ⟨s, hs⟩ := Nat.exists_eq_add_of_le (by omega : a ≤ 1074)
  have hone : (one : ℚ) ≠ 0 := Nat.cast_ne_zero.mpr one_pos.ne'
  refine ⟨s * 2 ^ 52 + m * 2 ^ a, ?_⟩
  rw [size, units_add hupper fun _ => hlower, mul_assoc, ← pow_add, ← hs, ← one_eq, Nat.cast_mul,
    mul_div_cancel_right₀ _ hone]

end Binary64

namespace Display
open Binary64 (near near_mono near_size size units one one_eq)

theorem isWhole_iff {n : Nat} : IsWhole n ↔ ∃ m : ℕ, size n = m := by
  have hone : (one : ℚ) ≠ 0 := Nat.cast_ne_zero.mpr Binary64.one_pos.ne'
  have hdvd : IsWhole n ↔ one ∣ units n := by
    unfold IsWhole one
    generalize 1074 = e
    exact Nat.dvd_iff_mod_eq_zero.symm
  rw [hdvd]
  constructor
  · rintro ⟨m, hm⟩
    exact ⟨m, by rw [size, hm, Nat.cast_mul, mul_div_cancel_left₀ _ hone]⟩
  · rintro ⟨m, hm⟩
    rw [size, div_eq_iff hone] at hm
    exact ⟨m, by rw [mul_comm]; exact_mod_cast hm⟩

/-- From `2 ^ 52` on all numbers are whole. -/
theorem isWhole_of_le {n : Nat} (h : 2 ^ 52 ≤ size n) : IsWhole n := by
  have hone : (0 : ℚ) < one := Nat.cast_pos.mpr Binary64.one_pos
  rw [size, le_div_iff₀ hone] at h
  have hle : 2 ^ 52 * one ≤ units n := by exact_mod_cast h
  rcases Binary64.units_cases n 1074 with ⟨m, hm⟩ | ⟨-, hlt⟩
  · refine isWhole_iff.mpr ⟨m, ?_⟩
    rw [size, hm, ← one_eq, Nat.cast_mul, mul_div_cancel_right₀ _ hone.ne']
  · rw [← one_eq] at hlt
    exact absurd hle (Nat.not_le.mpr hlt)

/-- Only a whole number is the nearest to a whole one. -/
theorem isWhole_of_near {n m : Nat} (h : near m = n) : IsWhole n := by
  by_cases hm : m < 2 ^ 53
  · obtain ⟨p, hp⟩ := Binary64.exists_size_eq hm
    rw [← hp, near_size] at h
    exact isWhole_iff.mpr ⟨m, by rw [← h, hp]⟩
  · obtain ⟨p, hp⟩ := Binary64.exists_size_eq (by decide : 2 ^ 52 < 2 ^ 53)
    have hle : size p ≤ m := by
      rw [hp]
      exact_mod_cast (Nat.le_of_lt (by omega) : 2 ^ 52 ≤ m)
    have hp' := near_mono hle
    rw [near_size, h] at hp'
    refine isWhole_of_le ?_
    have := Binary64.size_strictMono.monotone hp'
    rw [hp] at this
    exact_mod_cast this

end Display

namespace Decimal
open Binary64 (near near_size size)
open Display (IsWhole)

theorem step_one : step 1074 = 1 := by
  rw [step, Nat.cast_ofNat, sub_self, zpow_zero]

theorem step_mono : Monotone step := fun _ _ h => zpow_le_zpow_right₀ (by norm_num) (by omega)

theorem step_natural {j : Nat} (h : 1074 ≤ j) : step j = (10 ^ (j - 1074) : ℕ) := by
  have hexponent : (j : ℤ) - 1074 = (j - 1074 : ℕ) := by omega
  rw [step, hexponent, zpow_natCast, Nat.cast_pow, Nat.cast_ofNat]

/-- The search for a number that is not less than one starts no later than at the whole numbers. -/
theorem le_top_of_one_le {n : Nat} (h : 1 ≤ size n) : 1074 ≤ top n := by
  by_contra hlow
  have hlt := (size_lt_step_top n).trans_le (step_mono (Nat.not_le.mp hlow).le)
  rw [step_one] at hlt
  exact absurd h (not_le.mpr hlt)

/-- **The shortest decimal has places behind the point just if the number is not whole.** -/
theorem Coarsest.le_iff {n j k : Nat} (h : Coarsest n j k) (hn : n ≠ 0) : 1074 ≤ j ↔ IsWhole n := by
  constructor
  · intro hj
    refine Display.isWhole_of_near (m := k * 10 ^ (j - 1074)) ?_
    rw [Nat.cast_mul, ← step_natural hj]
    exact h.near_eq
  · intro hwhole
    obtain ⟨m, hm⟩ := Display.isWhole_iff.mp hwhole
    by_contra hj
    have hone : 1 ≤ size n := by
      have hpos := Binary64.size_pos hn
      rw [hm, Nat.cast_pos] at hpos
      rw [hm]
      exact_mod_cast hpos
    refine h.coarser 1074 (Nat.not_le.mp hj) (le_top_of_one_le hone) m ?_
    rw [step_one, mul_one, ← hm, near_size]

end Decimal

/-! ### Notation -/

namespace Decimal.Literal

/-- Digits without a superfluous zero in front. -/
structure Unpadded (run : List Char) : Prop where
  ne_nil : run ≠ []
  allDigits : AllDigits run
  head : run.head? = some '0' → run = ['0']

/-- Digits without a superfluous zero in front, and then more of them behind a point, or no
point at all. -/
def Positional (run : List Char) : Prop :=
  Unpadded run ∨
    ∃ whole places, run = whole ++ '.' :: places ∧ Unpadded whole ∧ places ≠ [] ∧ AllDigits places

/-- The significant digits: from the first to the last that is not zero. -/
def significant (run : List Char) : List Char :=
  ((digits run).dropWhile (· == '0')).rdropWhile (· == '0')

theorem digitChar_ne {m : Nat} (h : m % 10 ≠ 0) : Nat.digitChar (m % 10) ≠ '0' := by
  have hall : ∀ d < 10, d ≠ 0 → Nat.digitChar d ≠ '0' := by decide
  exact hall _ (Nat.mod_lt m (by decide)) h

theorem head?_toDigits {m : Nat} (h : m ≠ 0) : (Nat.toDigits 10 m).head? ≠ some '0' := by
  induction m using Nat.strongRecOn with
  | ind m ih =>
    by_cases hm : m < 10
    · have hdigit := digitChar_ne (m := m) (by omega)
      rw [Nat.mod_eq_of_lt hm] at hdigit
      rw [Nat.toDigits_of_lt_base hm]
      exact fun heq => hdigit (Option.some.inj heq)
    · rw [Nat.toDigits_of_base_le (by decide) (Nat.not_lt.mp hm),
        List.head?_append_of_ne_nil _ Nat.toDigits_ne_nil]
      exact ih (m / 10) (by omega) (by omega)

theorem getLast?_toDigits {m : Nat} (h : m % 10 ≠ 0) :
    (Nat.toDigits 10 m).getLast? ≠ some '0' := by
  have hdigit := digitChar_ne h
  rw [Nat.toDigits_eq_if (by decide)]
  split
  · next hm =>
    rw [Nat.mod_eq_of_lt hm] at hdigit
    exact fun heq => hdigit (Option.some.inj heq)
  · rw [List.getLast?_concat]
    exact fun heq => hdigit (Option.some.inj heq)

theorem unpadded_toDigits (m : Nat) : Unpadded (Nat.toDigits 10 m) where
  ne_nil := Nat.toDigits_ne_nil
  allDigits := allDigits_toDigits m
  head h := by
    by_cases hm : m = 0
    · rw [hm]
      rfl
    · exact absurd h (head?_toDigits hm)

theorem dropWhile_zeros {ds : List Char} (h : ds.head? ≠ some '0') (a : Nat) :
    (List.replicate a '0' ++ ds).dropWhile (· == '0') = ds := by
  have hzeros : ∀ c ∈ List.replicate a '0', (c == '0') = true := fun c hc => by
    rw [List.eq_of_mem_replicate hc]
    rfl
  rw [List.dropWhile_append_of_pos hzeros]
  cases ds with
  | nil => rfl
  | cons c ds =>
    refine List.dropWhile_cons_of_neg fun hc => h ?_
    rw [eq_of_beq hc, List.head?_cons]

/-- Zeros around the digits of a number do not count. -/
theorem significant_zeros {run : List Char} {m a b : Nat} (h : m % 10 ≠ 0)
    (hrun : digits run = List.replicate a '0' ++ (Nat.toDigits 10 m ++ List.replicate b '0')) :
    significant run = Nat.toDigits 10 m := by
  have hfirst : (Nat.toDigits 10 m ++ List.replicate b '0').head? ≠ some '0' := by
    rw [List.head?_append_of_ne_nil _ Nat.toDigits_ne_nil]
    exact head?_toDigits fun hm => h (by rw [hm])
  have hlast : (Nat.toDigits 10 m).reverse.head? ≠ some '0' := by
    rw [List.head?_reverse]
    exact getLast?_toDigits h
  rw [significant, hrun, dropWhile_zeros hfirst, List.rdropWhile, List.reverse_append,
    List.reverse_replicate, dropWhile_zeros hlast, List.reverse_reverse]

section Runs
variable {run whole places : List Char}

theorem worth_digits (h : AllDigits run) : worth run = (Nat.ofDigitChars 10 run 0 : ℕ) := by
  have hcount : run.count '.' ≤ 1 := by
    rw [h.count_point]
    exact Nat.zero_le 1
  rw [worth_eq h.all_isNumeral hcount, decimal, h.places_eq, h.digits_eq, numerator_neg,
    denominator_neg, pow_zero, Nat.cast_one, div_one]

theorem worth_point (hw : AllDigits whole) (hp : AllDigits places) :
    worth (whole ++ '.' :: places) =
      (Nat.ofDigitChars 10 (whole ++ places) 0 : ℕ) / 10 ^ places.length := by
  have hnumeral : (whole ++ '.' :: places).all isNumeral = true := by
    rw [List.all_append, List.all_cons, hw.all_isNumeral, hp.all_isNumeral]
    rfl
  have hcount : (whole ++ '.' :: places).count '.' ≤ 1 := by
    rw [List.count_append, List.count_cons_self, hw.count_point, hp.count_point]
  rw [worth_eq hnumeral hcount, decimal, places_point hw, digits_point hw hp, numerator_neg,
    denominator_neg, Nat.cast_pow, Nat.cast_ofNat]

end Runs
end Literal

/-! ### The text of a decimal -/

section Text
open Literal (AllDigits Unpadded Positional significant worth allDigits_toDigits allDigits_zeros
  unpadded_toDigits)

/-- Zeros are only put in front up to the width that is asked for. -/
theorem length_padded (width m : Nat) (hwidth : 2 ≤ width)
    (h : (padded width m).head? = some '0') : (padded width m).length = width := by
  by_cases hshort : (Nat.toDigits 10 m).length ≤ width
  · rw [padded, List.length_append, List.length_replicate]
    omega
  · have hzeros : width - (Nat.toDigits 10 m).length = 0 := by omega
    rw [padded, hzeros, List.replicate_zero, List.nil_append] at h
    have hm : m = 0 := not_not.mp fun hm => Literal.head?_toDigits hm h
    rw [hm, Nat.toDigits_zero, List.length_singleton] at hshort
    omega

/-- A decimal with places is written with some of its digits before the point. -/
theorem exists_text_eq (m n : Nat) : ∃ whole places,
    text ⟨m, .negSucc n⟩ = whole ++ '.' :: places ∧ whole ++ places = padded (n + 2) m ∧
      places.length = n + 1 ∧ Unpadded whole := by
  have hle := le_length_padded (n + 2) m
  have hdigits := allDigits_padded (n + 2) m
  have hhead := length_padded (n + 2) m (by omega)
  have htext : text ⟨m, .negSucc n⟩ =
      (padded (n + 2) m).take ((padded (n + 2) m).length - (n + 1)) ++
        '.' :: (padded (n + 2) m).drop ((padded (n + 2) m).length - (n + 1)) := rfl
  rw [htext]
  generalize padded (n + 2) m = ds at hle hdigits hhead
  have hlength : (ds.take (ds.length - (n + 1))).length = ds.length - (n + 1) := by
    rw [List.length_take]
    omega
  refine ⟨_, _, rfl, List.take_append_drop _ _, ?_, ?_⟩
  · rw [List.length_drop]
    omega
  · refine ⟨List.ne_nil_of_length_pos (by omega),
      fun c hc => hdigits c (List.mem_of_mem_take hc), ?_⟩
    intro hzero
    have hfirst : ds.head? = some '0' := by rwa [List.head?_take, if_neg (by omega)] at hzero
    obtain ⟨c, hc⟩ : ∃ c, ds.take (ds.length - (n + 1)) = [c] :=
      List.length_eq_one_iff.mp (by rw [hlength, hhead hfirst]; omega)
    rw [hc] at hzero ⊢
    cases hzero
    rfl

theorem worth_text (d : Decimal) : worth d.text = d.toRat := by
  obtain ⟨m, exponent⟩ := d
  cases exponent with
  | ofNat zeros =>
    have htext : text ⟨m, .ofNat zeros⟩ = Nat.toDigits 10 m ++ List.replicate zeros '0' := rfl
    rw [htext, Literal.worth_digits ((allDigits_toDigits m).append (allDigits_zeros zeros)),
      Nat.ofDigitChars_append, Nat.ofDigitChars_replicate_zero, ofDigitChars_toDigits, toRat]
    show ((10 ^ zeros * m : ℕ) : ℚ) = m * 10 ^ (zeros : ℤ)
    rw [zpow_natCast, Nat.cast_mul, Nat.cast_pow, Nat.cast_ofNat, mul_comm]
  | negSucc n =>
    obtain ⟨whole, places, htext, hsplit, hlength, hwhole⟩ := exists_text_eq m n
    have hplaces : AllDigits places := fun c hc =>
      allDigits_padded (n + 2) m c (hsplit ▸ List.mem_append_right whole hc)
    rw [htext, Literal.worth_point hwhole.allDigits hplaces, hsplit, ofDigitChars_padded, hlength,
      toRat]
    show (m / 10 ^ (n + 1) : ℚ) = m * 10 ^ (-((n + 1 : ℕ) : ℤ))
    rw [zpow_neg, zpow_natCast, div_eq_mul_inv]

theorem positional_text {d : Decimal} (h : d.digits ≠ 0) : Positional d.text := by
  obtain ⟨m, exponent⟩ := d
  cases exponent with
  | ofNat zeros =>
    refine .inl ⟨List.append_ne_nil_of_left_ne_nil Nat.toDigits_ne_nil _,
      (allDigits_toDigits m).append (allDigits_zeros zeros), fun hzero => ?_⟩
    have htext : text ⟨m, .ofNat zeros⟩ = Nat.toDigits 10 m ++ List.replicate zeros '0' := rfl
    rw [htext, List.head?_append_of_ne_nil _ Nat.toDigits_ne_nil] at hzero
    exact absurd hzero (Literal.head?_toDigits h)
  | negSucc n =>
    obtain ⟨whole, places, htext, hsplit, hlength, hwhole⟩ := exists_text_eq m n
    refine .inr ⟨whole, places, htext, hwhole, List.ne_nil_of_length_pos (by omega), fun c hc => ?_⟩
    exact allDigits_padded (n + 2) m c (hsplit ▸ List.mem_append_right whole hc)

theorem significant_text {d : Decimal} (h : d.digits % 10 ≠ 0) :
    significant d.text = Nat.toDigits 10 d.digits := by
  obtain ⟨m, exponent⟩ := d
  cases exponent with
  | ofNat zeros =>
    refine Literal.significant_zeros (a := 0) (b := zeros) h ?_
    exact ((allDigits_toDigits m).append (allDigits_zeros zeros)).digits_eq
  | negSucc n =>
    obtain ⟨whole, places, htext, hsplit, hlength, hwhole⟩ := exists_text_eq m n
    have hplaces : AllDigits places := fun c hc =>
      allDigits_padded (n + 2) m c (hsplit ▸ List.mem_append_right whole hc)
    refine Literal.significant_zeros (a := n + 2 - (Nat.toDigits 10 m).length) (b := 0) h ?_
    rw [htext, Literal.digits_point hwhole.allDigits hplaces, hsplit, List.replicate_zero,
      List.append_nil]
    rfl

/-- There is a point just before places. -/
theorem point_mem_text_iff (d : Decimal) : '.' ∈ d.text ↔ d.exponent < 0 := by
  obtain ⟨m, exponent⟩ := d
  cases exponent with
  | ofNat zeros =>
    have hdigits := (allDigits_toDigits m).append (allDigits_zeros zeros)
    refine iff_of_false (fun hmem => Literal.not_isDigit_point (hdigits _ hmem)) ?_
    exact not_lt.mpr (Int.natCast_nonneg zeros)
  | negSucc n =>
    obtain ⟨whole, places, htext, -⟩ := exists_text_eq m n
    refine iff_of_true ?_ (Int.negSucc_lt_zero n)
    rw [htext]
    exact List.mem_append_right whole List.mem_cons_self

end Text
end Decimal

/-! ### The display of a number -/

open Binary64 (value factor near size negative magnitude units one Rounds)
open Decimal (digitCount)
open Decimal.Literal (Positional significant worth)

/-- The run denotes a decimal that rounds to the number. No decimal that does has fewer
significant digits, and none with as many is nearer. -/
structure Display.Shortest (run : List Char) (v : Float) : Prop where
  rounds : Rounds (factor v * worth run) v
  length_le : ∀ m e : ℤ, Rounds (m * 10 ^ e) v → (significant run).length ≤ digitCount m.natAbs
  closest : ∀ m e : ℤ, Rounds (m * 10 ^ e) v → digitCount m.natAbs = (significant run).length →
    |factor v * worth run - value v| ≤ |m * 10 ^ e - value v|

namespace Display
variable {n : Nat}

theorem isShort_iff : IsShort n ↔ size n < 10 ^ 15 := by
  have hone : (0 : ℚ) < one := Nat.cast_pos.mpr Binary64.one_pos
  have hunits : IsShort n ↔ units n < 10 ^ 15 * one := by
    unfold IsShort one
    generalize 1074 = e
    exact Iff.rfl
  rw [hunits, size, div_lt_iff₀ hone]
  exact_mod_cast Iff.rfl

/-- Whole numbers below `10 ^ 15` are written exactly. -/
theorem unsigned_of_natural {m : Nat} (hm : size n = m) (hlt : m < 10 ^ 15) :
    unsigned n = Nat.toDigits 10 m ++ ['.', '0'] := by
  have hwhole : IsWhole n := isWhole_iff.mpr ⟨m, hm⟩
  have hshort : IsShort n := by
    rw [isShort_iff, hm]
    exact_mod_cast hlt
  have hdiv : units n / Nat.pow 2 1074 = units n / one := by
    unfold one
    rfl
  have hunits : units n = m * one := by
    rw [size, div_eq_iff (Nat.cast_ne_zero.mpr Binary64.one_pos.ne')] at hm
    exact_mod_cast hm
  rw [unsigned, if_pos ⟨hwhole, hshort⟩, hdiv, hunits, Nat.mul_div_cancel _ Binary64.one_pos]
  rfl

theorem unsigned_of_not (h : ∀ m : ℕ, size n = m → 10 ^ 15 ≤ m) :
    unsigned n = (Decimal.shortest n).text := by
  refine if_neg fun hboth => ?_
  obtain ⟨m, hm⟩ := isWhole_iff.mp hboth.1
  have hlt := isShort_iff.mp hboth.2
  rw [hm] at hlt
  exact absurd (h m hm) (Nat.not_le.mpr (by exact_mod_cast hlt))

theorem positional_unsigned (n : Nat) : Positional (unsigned n) := by
  by_cases h : ∃ m : ℕ, size n = m ∧ m < 10 ^ 15
  · obtain ⟨m, hm, hlt⟩ := h
    rw [unsigned_of_natural hm hlt]
    exact .inr ⟨_, ['0'], rfl, Decimal.Literal.unpadded_toDigits m, List.cons_ne_nil _ _,
      Decimal.Literal.allDigits_zeros 1⟩
  · have hnot : ∀ m : ℕ, size n = m → 10 ^ 15 ≤ m := fun m hm =>
      Nat.not_lt.mp fun hlt => h ⟨m, hm, hlt⟩
    have hn : n ≠ 0 := by
      rintro rfl
      exact absurd (hnot 0 (by rw [Binary64.size_zero, Nat.cast_zero])) (by decide)
    obtain ⟨j, k, hshortest, hcoarsest⟩ := Decimal.exists_coarsest hn
    rw [unsigned_of_not hnot, hshortest]
    exact Decimal.positional_text (hcoarsest.ne_zero hn)

end Display

/-- A decimal that rounds to a number is, without its sign, one that has the number without
its sign nearest to it, and as far away. -/
theorem Binary64.near_of_rounds {v : Float} (hv : v.isFinite = true) (hn : magnitude v ≠ 0)
    {m e : ℤ} (h : Rounds (m * 10 ^ e) v) :
    near (m.natAbs * 10 ^ e) = magnitude v ∧
      |(m * 10 ^ e : ℚ) - value v| = |m.natAbs * 10 ^ e - size (magnitude v)| := by
  have hflip : (m * 10 ^ e : ℚ) = factor v * (factor v * (m * 10 ^ e)) := by
    rw [← mul_assoc, factor_mul_self, one_mul]
  rw [hflip, rounds_iff hv hn] at h
  have hsize : factor v * (m * 10 ^ e) = m.natAbs * 10 ^ e := by
    have hpos : 0 < factor v * (m * 10 ^ e) := by
      by_contra hneg
      rw [near_of_nonpos (not_lt.mp hneg)] at h
      exact hn h.symm
    have hpow : (0 : ℚ) < 10 ^ e := zpow_pos (by norm_num) e
    rw [← abs_of_pos hpos, abs_mul, abs_factor, one_mul, abs_mul, abs_of_pos hpow,
      Nat.cast_natAbs, Int.cast_abs]
  rw [hsize] at h
  refine ⟨h, ?_⟩
  rw [hflip, value_eq hv, ← size, ← mul_sub, abs_mul, abs_factor, one_mul, hsize]

namespace Display
variable {v : Float}

theorem shortest_text (hv : v.isFinite = true) (hn : magnitude v ≠ 0) :
    Shortest (Decimal.shortest (magnitude v)).text v := by
  obtain ⟨j, k, hshortest, hcoarsest⟩ := Decimal.exists_coarsest hn
  have hworth : worth (Decimal.shortest (magnitude v)).text = k * Decimal.step j := by
    rw [Decimal.worth_text, hshortest, Decimal.toRat_gridPoint]
  have hcount : (significant (Decimal.shortest (magnitude v)).text).length = digitCount k := by
    rw [Decimal.significant_text, hshortest]
    · rfl
    · rw [hshortest]
      exact hcoarsest.mod_ten_ne_zero hn
  refine ⟨?_, fun m e h => ?_, fun m e h hm => ?_⟩
  · rw [hworth]
    exact (Binary64.rounds_iff hv hn _).mpr hcoarsest.near_eq
  · rw [hcount]
    exact hcoarsest.digitCount_le (Binary64.near_of_rounds hv hn h).1
  · obtain ⟨hnear, hdistance⟩ := Binary64.near_of_rounds hv hn h
    rw [hcount] at hm
    have hvalue : |factor v * worth (Decimal.shortest (magnitude v)).text - value v| =
        |k * Decimal.step j - size (magnitude v)| := by
      rw [hworth, Binary64.value_eq hv, ← size, ← mul_sub, abs_mul, Binary64.abs_factor, one_mul]
    rw [hvalue, hdistance]
    exact hcoarsest.closest_of_digitCount hn hnear hm

theorem point_mem_iff (hn : magnitude v ≠ 0) :
    '.' ∈ (Decimal.shortest (magnitude v)).text ↔ ¬ IsWhole (magnitude v) := by
  obtain ⟨j, k, hshortest, hcoarsest⟩ := Decimal.exists_coarsest hn
  rw [Decimal.point_mem_text_iff, hshortest, ← hcoarsest.le_iff hn]
  show (j : ℤ) - 1074 < 0 ↔ ¬ 1074 ≤ j
  omega

/-- **What is displayed for a number is right and as short as can be.** -/
theorem valueText_shortest (hv : v.isFinite = true) :
    ∃ run, (valueText v).toList = (if negative v then ['-'] else []) ++ run ∧ Positional run ∧
      (∀ m : ℕ, |value v| = m → m < 10 ^ 15 → run = Nat.toDigits 10 m ++ ['.', '0']) ∧
      ((∀ m : ℕ, |value v| = m → 10 ^ 15 ≤ m) →
        Shortest run v ∧ ('.' ∈ run ↔ ∀ m : ℕ, |value v| ≠ m)) := by
  rw [Binary64.abs_value hv]
  refine ⟨unsigned (magnitude v), toList_valueText hv, positional_unsigned _,
    fun m hm hlt => unsigned_of_natural hm hlt, fun hnot => ?_⟩
  have hn : magnitude v ≠ 0 := fun hzero => by
    have hle := hnot 0 (by rw [hzero, Binary64.size_zero, Nat.cast_zero])
    exact absurd hle (by decide)
  rw [unsigned_of_not hnot]
  refine ⟨shortest_text hv hn, ?_⟩
  rw [point_mem_iff hn, isWhole_iff, not_exists]

/-- The power of ten is no number, and the nearest number is less than it. It is written with
the single significant digit of the power all the same. -/
theorem valueText_shortest_power :
    (1e23 : Float).isFinite = true ∧
      (valueText 1e23).toList = '1' :: List.replicate 23 '0' ∧
      Shortest ('1' :: List.replicate 23 '0') 1e23 ∧
      (-0 : Float).isFinite = true ∧ (valueText (-0)).toList = ['-', '0', '.', '0'] := by
  have hfinite : (1e23 : Float).isFinite = true := by decide +kernel
  have hfinite' : (-0 : Float).isFinite = true := by decide +kernel
  have hsign : negative 1e23 = false := by decide +kernel
  have hsign' : negative (-0) = true := by decide +kernel
  have htext : (valueText 1e23).toList = '1' :: List.replicate 23 '0' := by decide +kernel
  have hlarge : ¬ IsShort (magnitude 1e23) := by decide +kernel
  have hzero : magnitude (-0) = 0 := by decide +kernel
  obtain ⟨run, hrun, -, -, hshortest⟩ := valueText_shortest hfinite
  obtain ⟨run', hrun', -, hexact, -⟩ := valueText_shortest hfinite'
  rw [hsign, htext] at hrun
  rw [hsign', hexact 0 (by rw [Binary64.abs_value hfinite', hzero, Binary64.size_zero,
    Nat.cast_zero]) (by decide)] at hrun'
  refine ⟨hfinite, htext, ?_, hfinite', hrun'⟩
  rw [hrun]
  refine (hshortest fun m hm => ?_).1
  rw [isShort_iff, ← Binary64.abs_value hfinite, hm, not_lt] at hlarge
  exact_mod_cast hlarge

end Display
end Calculator
