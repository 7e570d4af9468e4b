import Mathlib
import Calculator.Proofs.Bits
import Calculator.Proofs.Rounding
import Calculator.Proofs.Spelling
import Calculator.Display

/-! Displayed numbers read back.

What is displayed for a number without its sign is a literal, and the number nearest to
what the literal spells is that number again (`denotes_unsigned`). Three ways of writing
meet here: whole numbers with one decimal place, which are exact, the finest grid, which
is exact as well, and the neighbours on coarser grids, which are only chosen when they
read back. -/
namespace Calculator
open Binary64 (nearest units one)

/-! ### Equal decimals -/

namespace Decimal

theorem numerator_ofNat (n zeros : Nat) : numerator ⟨n, zeros⟩ = n * 10 ^ zeros := rfl

theorem denominator_ofNat (n zeros : Nat) : denominator ⟨n, zeros⟩ = 1 := by
  simp [denominator]

theorem numerator_neg (n places : Nat) : numerator ⟨n, -places⟩ = n := by
  simp [numerator]

theorem denominator_neg (n places : Nat) : denominator ⟨n, -places⟩ = 10 ^ places := by
  simp [denominator]

/-- Decimals that are equal as fractions have the same number nearest to them. -/
theorem magnitude_congr {d d' : Decimal}
    (h : d.numerator * d'.denominator = d'.numerator * d.denominator) :
    d.magnitude = d'.magnitude := Binary64.nearest_congr d.denominator_pos d'.denominator_pos h

/-- The number nearest to a decimal that is a number is that number. -/
theorem magnitude_of_exact {d : Decimal} {n : Nat}
    (h : d.numerator * one = units n * d.denominator) : d.magnitude = n := by
  calc d.magnitude = nearest (units n) one :=
        Binary64.nearest_congr d.denominator_pos Binary64.one_pos h
    _ = n := Binary64.nearest_units n

theorem magnitude_of_places {m n places : Nat} (h : m * one = units n * 10 ^ places) :
    magnitude ⟨m, -places⟩ = n :=
  magnitude_of_exact (by rw [numerator_neg, denominator_neg, h])

/-! ### Digits and points -/

namespace Literal

/-- A run that is a literal, for a number of magnitude `n`. -/
structure Denotes (run : List Char) (n : Nat) : Prop where
  all_isNumeral : run.all isNumeral = true
  wellFormed : WellFormed run
  magnitude : (decimal run).magnitude = n

theorem Denotes.value?_eq {run : List Char} {n : Nat} (h : Denotes run n)
    (hn : n < Binary64.infinity) : value? run = some (Binary64.ofMagnitude n) := by
  rw [value?, if_pos h.wellFormed]
  dsimp only
  rw [h.magnitude, if_pos hn]

/-- A run of digits alone. -/
def AllDigits (run : List Char) : Prop := ∀ c ∈ run, c.isDigit = true

theorem AllDigits.append {a b : List Char} (ha : AllDigits a) (hb : AllDigits b) :
    AllDigits (a ++ b) := by
  intro c hc
  rcases List.mem_append.mp hc with hc | hc
  · exact ha c hc
  · exact hb c hc

theorem allDigits_toDigits (n : Nat) : AllDigits (Nat.toDigits 10 n) := fun _ =>
  Nat.isDigit_of_mem_toDigits (by decide) (by decide)

theorem allDigits_zeros (n : Nat) : AllDigits (List.replicate n '0') := by
  intro c hc
  rw [List.eq_of_mem_replicate hc]
  decide

section Runs
variable {run whole places : List Char} {n : Nat}

theorem AllDigits.all_isNumeral (h : AllDigits run) : run.all isNumeral = true :=
  List.all_eq_true.mpr fun c hc => by rw [isNumeral, h c hc, Bool.true_or]

theorem AllDigits.digits_eq (h : AllDigits run) : digits run = run := List.filter_eq_self.mpr h

theorem AllDigits.count_point (h : AllDigits run) : run.count '.' = 0 := by
  refine List.count_eq_zero.mpr fun hmem => ?_
  have hpoint := h _ hmem
  revert hpoint
  decide

theorem AllDigits.places_eq (h : AllDigits run) : Literal.places run = 0 := by
  rw [Literal.places, List.dropWhile_eq_nil_iff.mpr h]
  rfl

/-- A run of digits is a whole number. -/
theorem denotes_digits (h : AllDigits run) (hne : run ≠ [])
    (hn : Decimal.magnitude ⟨Nat.ofDigitChars 10 run 0, (0 : Nat)⟩ = n) : Denotes run n where
  all_isNumeral := h.all_isNumeral
  wellFormed := ⟨by rw [h.count_point]; exact Nat.zero_le 1, by rwa [h.digits_eq]⟩
  magnitude := by
    rw [decimal, h.places_eq, h.digits_eq]
    exact hn

theorem not_isDigit_point : ¬ ('.' : Char).isDigit = true := by decide

theorem digits_point (hw : AllDigits whole) (hp : AllDigits places) :
    digits (whole ++ '.' :: places) = whole ++ places := by
  rw [digits, List.filter_append, List.filter_cons, if_neg not_isDigit_point,
    List.filter_eq_self.mpr hw, List.filter_eq_self.mpr hp]

theorem places_point (hw : AllDigits whole) (places : List Char) :
    Literal.places (whole ++ '.' :: places) = places.length := by
  rw [Literal.places, List.dropWhile_append_of_pos hw, List.dropWhile_cons,
    if_neg not_isDigit_point]
  rfl

/-- The digits behind a point count as decimal places. -/
theorem denotes_point (hw : AllDigits whole) (hp : AllDigits places) (hne : whole ++ places ≠ [])
    (hn : Decimal.magnitude ⟨Nat.ofDigitChars 10 (whole ++ places) 0, -places.length⟩ = n) :
    Denotes (whole ++ '.' :: places) n where
  all_isNumeral := by
    rw [List.all_append, List.all_cons, hw.all_isNumeral, hp.all_isNumeral]
    rfl
  wellFormed := by
    constructor
    · rw [List.count_append, List.count_cons_self, hw.count_point, hp.count_point]
    · rwa [digits_point hw hp]
  magnitude := by
    rw [decimal, places_point hw, digits_point hw hp]
    exact hn

/-- A point among digits, with `k` of them behind it. -/
theorem denotes_split {k : Nat} (h : AllDigits run) (hk : k < run.length)
    (hn : Decimal.magnitude ⟨Nat.ofDigitChars 10 run 0, -k⟩ = n) :
    Denotes (run.take (run.length - k) ++ '.' :: run.drop (run.length - k)) n := by
  have hsplit := List.take_append_drop (run.length - k) run
  have hlength : (run.drop (run.length - k)).length = k := by
    rw [List.length_drop]
    omega
  refine denotes_point (fun c hc => h c (List.mem_of_mem_take hc))
    (fun c hc => h c (List.mem_of_mem_drop hc)) ?_ ?_
  · rw [hsplit]
    exact List.ne_nil_of_length_pos (by omega)
  · rwa [hsplit, hlength]

end Runs
end Literal

/-! ### The text of a decimal -/

section Text
open Literal (Denotes AllDigits allDigits_toDigits allDigits_zeros)

theorem ofDigitChars_toDigits (n : Nat) : Nat.ofDigitChars 10 (Nat.toDigits 10 n) 0 = n :=
  Nat.ofDigitChars_toDigits (by decide) (by decide)

theorem ofDigitChars_padded (width n : Nat) : Nat.ofDigitChars 10 (padded width n) 0 = n := by
  rw [padded, Nat.ofDigitChars_append, Nat.ofDigitChars_replicate_zero, Nat.mul_zero,
    ofDigitChars_toDigits]

theorem allDigits_padded (width n : Nat) : AllDigits (padded width n) :=
  (allDigits_zeros _).append (allDigits_toDigits n)

/-- **What a decimal is written as is a literal that denotes it.** -/
theorem denotes_text (d : Decimal) : Denotes d.text d.magnitude := by
  obtain ⟨n, exponent⟩ := d
  cases exponent with
  | ofNat zeros =>
    show Denotes (Nat.toDigits 10 n ++ List.replicate zeros '0') (magnitude ⟨n, zeros⟩)
    have hdigits := (allDigits_toDigits n).append (allDigits_zeros zeros)
    refine Literal.denotes_digits hdigits (by simp [Nat.toDigits_ne_nil]) (magnitude_congr ?_)
    rw [Nat.ofDigitChars_append, Nat.ofDigitChars_replicate_zero, ofDigitChars_toDigits,
      denominator_ofNat, denominator_ofNat, numerator_ofNat, numerator_ofNat, Nat.pow_zero,
      Nat.mul_one, Nat.mul_comm n]
  | negSucc k =>
    have hlength : k + 1 < (padded (k + 2) n).length := le_length_padded (k + 2) n
    refine Literal.denotes_split (allDigits_padded (k + 2) n) hlength ?_
    rw [ofDigitChars_padded]
    rfl

end Text

/-! ### The shortest decimal -/

theorem magnitude_neighbour {n j : Nat} {d : Decimal} (h : neighbour? n j = some d) :
    d.magnitude = n := by
  unfold neighbour? at h
  dsimp only at h
  split at h
  · next hbelow =>
    split at h
    · next habove => cases h; exact habove.1
    · cases h; exact hbelow
  · split at h
    · next habove => cases h; exact habove
    · cases h

/-- The finest grid holds the number itself. -/
theorem magnitude_gridPoint_zero (n : Nat) : (gridPoint 0 (exactly n)).magnitude = n := by
  have htens : ∀ e, units n * Nat.pow 5 e * Nat.pow 2 e = units n * 10 ^ e := fun e => by
    rw [Nat.mul_assoc]
    exact congrArg _ (Nat.mul_pow 5 2 e).symm
  have hgrid : gridPoint 0 (exactly n) = ⟨exactly n, -(1074 : Nat)⟩ := rfl
  rw [hgrid]
  refine magnitude_of_places ?_
  unfold exactly one
  generalize 1074 = e
  exact htens e

theorem magnitude_coarsest {candidate? : Nat → Option Decimal} {last : Decimal} {n : Nat}
    (hlast : last.magnitude = n) (hcandidate : ∀ j d, candidate? j = some d → d.magnitude = n)
    (j : Nat) : (coarsest candidate? last j).magnitude = n := by
  induction j with
  | zero =>
    rw [coarsest]
    exact hlast
  | succ j ih =>
    rw [coarsest]
    split
    · next d h => exact hcandidate _ _ h
    · exact ih

/-- **The shortest decimal of a number reads back as that number.** -/
theorem magnitude_shortest (n : Nat) : (shortest n).magnitude = n := by
  unfold shortest
  split
  · next h =>
    rw [h]
    refine magnitude_of_exact ?_
    show numerator ⟨0, (0 : Nat)⟩ * one = units 0 * denominator ⟨0, (0 : Nat)⟩
    rw [numerator_ofNat, denominator_ofNat, Binary64.units_of_lt (by decide), Nat.zero_mul,
      Nat.zero_mul, Nat.zero_mul]
  · exact magnitude_coarsest (magnitude_gridPoint_zero n) (fun _ _ => magnitude_neighbour) _

end Decimal

/-! ### The display of a number -/

namespace Display
open Decimal.Literal (Denotes)

/-- What is displayed for a number without its sign. -/
def unsigned (n : Nat) : List Char :=
  if IsWhole n ∧ IsShort n then
    Nat.toDigits 10 (units n / Nat.pow 2 1074) ++ ".0".toList
  else
    (Decimal.shortest n).text

theorem toList_valueText {x : Float} (hx : x.isFinite = true) :
    (valueText x).toList = sign x ++ unsigned (Binary64.magnitude x) := by
  have hlt := (Binary64.isFinite_iff x).mp hx
  unfold valueText unsigned
  dsimp only
  split
  · rw [String.toList_ofList, List.append_assoc]
  · rw [numberText, if_pos hlt, String.toList_ofList]

/-- Whole numbers are written exactly. -/
theorem denotes_whole {n : Nat} (h : IsWhole n) :
    Denotes (Nat.toDigits 10 (units n / Nat.pow 2 1074) ++ ".0".toList) n := by
  have hwhole : units n / one * one = units n := by
    unfold IsWhole at h
    unfold one
    exact Nat.div_mul_cancel (Nat.dvd_of_mod_eq_zero h)
  have hunits : units n / Nat.pow 2 1074 = units n / one := by
    unfold one
    rfl
  rw [hunits]
  show Denotes (Nat.toDigits 10 (units n / one) ++ '.' :: ['0']) n
  refine Decimal.Literal.denotes_point (Decimal.Literal.allDigits_toDigits _)
    (Decimal.Literal.allDigits_zeros 1)
    (fun hnil => Nat.toDigits_ne_nil (List.append_eq_nil_iff.mp hnil).1) ?_
  rw [Nat.ofDigitChars_append, Decimal.ofDigitChars_toDigits]
  show Decimal.magnitude ⟨10 * (units n / one), -(1 : Nat)⟩ = n
  refine Decimal.magnitude_of_places ?_
  rw [Nat.mul_assoc, hwhole, Nat.pow_one, Nat.mul_comm]

/-- **What is displayed for a number reads back as that number**, its sign apart. -/
theorem denotes_unsigned (n : Nat) : Denotes (unsigned n) n := by
  unfold unsigned
  split
  · next h => exact denotes_whole h.1
  · have h := Decimal.denotes_text (Decimal.shortest n)
    rwa [Decimal.magnitude_shortest] at h

/-- Nothing but a sign, digits and points is displayed. -/
theorem mem_valueText {x : Float} (hx : x.isFinite = true) {c : Char}
    (hc : c ∈ (valueText x).toList) : c = '-' ∨ Decimal.Literal.isNumeral c = true := by
  rw [toList_valueText hx] at hc
  rcases List.mem_append.mp hc with hc | hc
  · unfold sign at hc
    split at hc
    · exact .inl (List.mem_singleton.mp hc)
    · cases hc
  · exact .inr (List.all_eq_true.mp (denotes_unsigned _).all_isNumeral c hc)

theorem spells_unsigned {n : Nat} (h : n < Binary64.infinity) :
    (Token.number (Binary64.ofMagnitude n)).Spells (unsigned n) :=
  ⟨(denotes_unsigned n).all_isNumeral, (denotes_unsigned n).value?_eq h⟩

end Display
end Calculator
