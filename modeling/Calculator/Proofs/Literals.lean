import Calculator.Proofs.Munching
import Calculator.Proofs.Readback
import Calculator.Proofs.Values

/-! What a literal is read as.

The exact number that a run of digits and a point spells is its `worth`, digit by digit. The
number read is the one that this rounds to. A run is refused only if it spells nothing, or if
what it spells is halfway or more from the last finite number to the next power of two
(`lexFrom_run`). -/
namespace Calculator
open Binary64 (RoundsTo nearest)

namespace Decimal.Literal

/-! ### The exact number -/

/-- What a digit counts in its place. -/
def digit (c : Char) : ℚ := (c.toNat - '0'.toNat : ℕ)

/-- Behind the point each digit counts a tenth of the one before it. -/
def fraction : List Char → ℚ
  | [] => 0
  | c :: run => (digit c + fraction run) / 10

/-- Before the point each digit makes ten times as much of what came before it. -/
def worthFrom (whole : ℚ) : List Char → ℚ
  | [] => whole
  | c :: run => if c = '.' then whole + fraction run else worthFrom (10 * whole + digit c) run

/-- The number that a run of digits, with a point somewhere or nowhere, spells. -/
def worth (run : List Char) : ℚ := worthFrom 0 run

section Runs
variable {run whole places : List Char}

/-- A run with one point at most is some digits, and some more behind the point. -/
theorem exists_split (hrun : run.all isNumeral = true) (hcount : run.count '.' ≤ 1) :
    AllDigits run ∨ ∃ whole places, run = whole ++ '.' :: places ∧ AllDigits whole ∧
      AllDigits places := by
  have hdigits : ∀ part : List Char, part ⊆ run → part.count '.' = 0 → AllDigits part := by
    intro part hpart hnone c hc
    have hnumeral := List.all_eq_true.mp hrun c (hpart hc)
    have hpoint : c ≠ '.' := fun heq => List.count_eq_zero.mp hnone (heq ▸ hc)
    simpa [isNumeral, hpoint] using hnumeral
  by_cases hpoint : '.' ∈ run
  · obtain ⟨whole, places, rfl⟩ := List.append_of_mem hpoint
    rw [List.count_append, List.count_cons_self] at hcount
    exact .inr ⟨whole, places, rfl, hdigits whole (by simp) (by omega),
      hdigits places (by simp) (by omega)⟩
  · exact .inl (hdigits run (List.Subset.refl run) (List.count_eq_zero.mpr hpoint))

theorem cast_ofDigitChars (run : List Char) (n : Nat) :
    (Nat.ofDigitChars 10 run n : ℚ) = 10 ^ run.length * n + (Nat.ofDigitChars 10 run 0 : ℕ) := by
  rw [Nat.ofDigitChars_eq_ofDigitChars_zero, Nat.cast_add, Nat.cast_mul, Nat.cast_pow,
    Nat.cast_ofNat]

theorem fraction_eq (places : List Char) :
    fraction places = (Nat.ofDigitChars 10 places 0 : ℕ) / 10 ^ places.length := by
  induction places with
  | nil => simp [fraction]
  | cons c places ih =>
    rw [fraction, ih, Nat.ofDigitChars_cons, cast_ofDigitChars places (10 * 0 + _), digit,
      List.length_cons, Nat.mul_zero, Nat.zero_add]
    field_simp
    ring

theorem worthFrom_append (h : AllDigits whole) (n : Nat) (rest : List Char) :
    worthFrom n (whole ++ rest) = worthFrom (Nat.ofDigitChars 10 whole n : ℕ) rest := by
  induction whole generalizing n with
  | nil => rfl
  | cons c whole ih =>
    have hc : c ≠ '.' := fun heq => not_isDigit_point (heq ▸ h c List.mem_cons_self)
    have hnext : 10 * (n : ℚ) + digit c = (10 * n + (c.toNat - '0'.toNat) : ℕ) := by
      rw [digit, Nat.cast_add, Nat.cast_mul, Nat.cast_ofNat]
    rw [List.cons_append, worthFrom, if_neg hc, hnext,
      ih fun d hd => h d (List.mem_cons_of_mem c hd), Nat.ofDigitChars_cons]

/-- **The decimal of a run is what its digits are worth.** -/
theorem worth_eq (hrun : run.all isNumeral = true) (hcount : run.count '.' ≤ 1) :
    worth run = (decimal run).numerator / (decimal run).denominator := by
  have hfrom : worth run = worthFrom (0 : ℕ) run := by rw [worth, Nat.cast_zero]
  rw [hfrom, decimal, numerator_neg, denominator_neg]
  rcases exists_split hrun hcount with h | ⟨whole, places, rfl, hwhole, hplaces⟩
  · rw [h.places_eq, h.digits_eq, ← List.append_nil run, worthFrom_append h]
    simp [worthFrom]
  · rw [places_point hwhole, digits_point hwhole hplaces, worthFrom_append hwhole, worthFrom,
      if_pos rfl, fraction_eq, Nat.ofDigitChars_append,
      cast_ofDigitChars places (Nat.ofDigitChars 10 whole 0), Nat.cast_pow, Nat.cast_ofNat]
    field_simp

/-! ### The number read -/

/-- A run is no number if it has two points or no digit, or if it spells too much. -/
def Refused (run : List Char) : Prop :=
  1 < run.count '.' ∨ (∀ c ∈ run, c = '.') ∨ 2 ^ 1024 - 2 ^ 970 ≤ worth run

theorem digits_eq_nil_iff (hrun : run.all isNumeral = true) :
    digits run = [] ↔ ∀ c ∈ run, c = '.' := by
  rw [digits, List.filter_eq_nil_iff]
  refine forall₂_congr fun c hc => ?_
  have hnumeral := List.all_eq_true.mp hrun c hc
  by_cases hpoint : c = '.'
  · rw [hpoint]
    exact iff_of_true not_isDigit_point rfl
  · have hdigit : c.isDigit = true := by simpa [isNumeral, hpoint] using hnumeral
    exact iff_of_false (fun h => h hdigit) hpoint

theorem magnitude_lt_iff (hrun : run.all isNumeral = true) (hcount : run.count '.' ≤ 1) :
    (decimal run).magnitude < Binary64.infinity ↔ worth run < 2 ^ 1024 - 2 ^ 970 := by
  rw [worth_eq hrun hcount]
  exact Binary64.nearest_lt_infinity_iff (decimal run).denominator_pos

/-- A run has no value just if it is refused. -/
theorem value?_eq_none_iff (hrun : run.all isNumeral = true) :
    value? run = none ↔ Refused run := by
  have hnil := digits_eq_nil_iff hrun
  rw [value?, Refused]
  by_cases hwell : WellFormed run
  · have hlt := magnitude_lt_iff hrun hwell.1
    rw [if_pos hwell]
    dsimp only
    split
    · next hsmall =>
      refine iff_of_false (Option.some_ne_none _) ?_
      rintro (hpoints | hpoints | hlarge)
      · exact absurd hwell.1 (Nat.not_le.mpr hpoints)
      · exact hwell.2 (hnil.mpr hpoints)
      · exact absurd (hlt.mp hsmall) (not_lt.mpr hlarge)
    · next hlarge => exact iff_of_true rfl (.inr (.inr (not_lt.mp fun h => hlarge (hlt.mpr h))))
  · rw [if_neg hwell]
    refine iff_of_true rfl ?_
    by_cases hpoints : run.count '.' ≤ 1
    · exact .inr (.inl (hnil.mp (not_not.mp fun hdigits => hwell ⟨hpoints, hdigits⟩)))
    · exact .inl (Nat.not_le.mp hpoints)

/-- The value of a run is what its worth rounds to. -/
theorem value?_eq_some {x : Float} (hrun : run.all isNumeral = true) (h : value? run = some x) :
    Binary64.negative x = false ∧ RoundsTo (worth run) x := by
  unfold value? at h
  dsimp only at h
  split at h
  · next hwell =>
    split at h
    · next hfinite =>
      cases h
      rw [worth_eq hrun hwell.1]
      exact ⟨Binary64.negative_ofMagnitude hfinite,
        Binary64.roundsTo_nearest (decimal run).denominator_pos hfinite⟩
    · cases h
  · cases h

end Runs
end Decimal.Literal

/-! ### Reading -/

open Decimal.Literal (isNumeral value? worth Refused)

theorem lexFrom_number {run rest : List Char} {x : Float} (hrun : run.all isNumeral = true)
    (hvalue : value? run = some x) (hrest : Token.Breaks rest) (start : Nat) :
    lexFrom (run ++ rest) start [] =
      (lexFrom rest (start + width run) []).after [⟨.number x, start, start + width run⟩] :=
  Layout.lexFrom_piece ⟨[], .number x, run, rfl, hrun, hvalue⟩ (fun _ => hrest) start

theorem lexFrom_malformed {run rest : List Char} (hne : run ≠ []) (hrun : run.all isNumeral = true)
    (hvalue : value? run = none) (hrest : Token.Breaks rest) (start : Nat) :
    lexFrom (run ++ rest) start [] = ⟨[], .fault (.malformedNumber (String.ofList run)) start⟩ := by
  obtain ⟨c, run, rfl⟩ := List.exists_cons_of_ne_nil hne
  have hc : isNumeral c = true := List.all_eq_true.mp hrun c List.mem_cons_self
  exact lexFrom_fault start [] (Token.isGap_of_isNumeral hc)
    (Token.cut_of_malformed hrun hrest hvalue)

/-- **Literals are rounded correctly, and refused just when they must be.** -/
theorem lexFrom_run {run rest : List Char} (hne : run ≠ []) (hrun : run.all isNumeral = true)
    (hrest : Token.Breaks rest) (start : Nat) :
    (lexFrom (run ++ rest) start [] =
        ⟨[], .fault (.malformedNumber (String.ofList run)) start⟩ ↔ Refused run) ∧
      (¬ Refused run → ∃ x, lexFrom (run ++ rest) start [] =
          (lexFrom rest (start + width run) []).after [⟨.number x, start, start + width run⟩] ∧
        Binary64.negative x = false ∧ RoundsTo (worth run) x ∧
        ∀ y, Binary64.negative y = false → RoundsTo (worth run) y → y = x) := by
  have hrefused := Decimal.Literal.value?_eq_none_iff hrun
  cases hvalue : value? run with
  | none =>
    have h := hrefused.mp hvalue
    exact ⟨iff_of_true (lexFrom_malformed hne hrun hvalue hrest start) h, fun hnot => absurd h hnot⟩
  | some x =>
    have hnot : ¬ Refused run := fun h => by
      rw [hrefused.mpr h] at hvalue
      cases hvalue
    have hnumber := lexFrom_number hrun hvalue hrest start
    obtain ⟨hsign, hrounds⟩ := Decimal.Literal.value?_eq_some hrun hvalue
    refine ⟨iff_of_false (fun h => ?_) hnot, fun _ => ⟨x, hnumber, hsign, hrounds,
      fun y hy hrounds' => hrounds'.unique hrounds (hy.trans hsign.symm)⟩⟩
    rw [hnumber] at h
    cases congrArg Lexed.lexemes h

/-- The first of these runs is halfway between two numbers of which the lower is even. The
second is as long as that of the largest number. -/
theorem lexFrom_run_halfway :
    "9007199254740993".toList.all isNumeral = true ∧ Token.Breaks ['+'] ∧
      ¬ Refused "9007199254740993".toList ∧
      lexFrom ("9007199254740993".toList ++ ['+']) 5 [] =
        (lexFrom ['+'] 21 []).after [⟨.number 9007199254740992, 5, 21⟩] ∧
      RoundsTo 9007199254740993 9007199254740992 ∧
      lexFrom (List.replicate 309 '9' ++ ['(']) 0 [] =
        ⟨[], .fault (.malformedNumber (String.ofList (List.replicate 309 '9'))) 0⟩ ∧
      Refused (List.replicate 309 '9') := by
  have hplus : Token.Breaks ['+'] := fun c hc => by cases hc; rfl
  have hparen : Token.Breaks ['('] := fun c hc => by cases hc; rfl
  have hrun : "9007199254740993".toList.all isNumeral = true := by decide
  have hnines : (List.replicate 309 '9').all isNumeral = true := by decide +kernel
  have hvalue : value? "9007199254740993".toList = some 9007199254740992 := by decide +kernel
  have hnone : value? (List.replicate 309 '9') = none := by decide +kernel
  have hworth : worth "9007199254740993".toList = 9007199254740993 := by decide +kernel
  have hread := lexFrom_number hrun hvalue hplus 5
  obtain ⟨hmalformed, hnumber⟩ := lexFrom_run (by decide) hrun hplus 5
  have hrefused : ¬ Refused "9007199254740993".toList := fun h => by
    rw [← hmalformed, hread] at h
    cases congrArg Lexed.lexemes h
  obtain ⟨x, hx, -, hrounds, -⟩ := hnumber hrefused
  have hsame : (9007199254740992 : Float) = x := by
    rw [hread] at hx
    have htoken := congrArg (fun lexed => lexed.lexemes.head?.map Lexeme.token) hx
    injection Option.some.inj htoken
  rw [hworth, ← hsame] at hrounds
  have hlarge := lexFrom_malformed (by decide) hnines hnone hparen 0
  exact ⟨hrun, hplus, hrefused, hread, hrounds, hlarge,
    (lexFrom_run (by decide) hnines hparen 0).1.mp hlarge⟩

end Calculator
