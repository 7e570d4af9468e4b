import Calculator.Decimal.Shortest

/-! What the display shows.

Results are written so that they can be typed again: always in positional form,
with the fewest digits that read back, and with one decimal place kept on whole
values below `10 ^ 15` so that a result looks like a result. A failed evaluation
shows the `marker`, whatever its reason. -/
namespace Calculator.Display

/-! ### Numbers -/

def sign (x : Float) : List Char := if Binary64.negative x then ['-'] else []

/-- A number in its shortest positional form. -/
def numberText (x : Float) : String :=
  let n := Binary64.magnitude x
  if n < Binary64.infinity then
    String.ofList (sign x ++ (Decimal.shortest n).text)
  else if n = Binary64.infinity then
    String.ofList (sign x ++ "inf".toList)
  else
    "NaN"

/-- The magnitude is that of a whole number. -/
def IsWhole (n : Nat) : Prop := Binary64.units n % Nat.pow 2 1074 = 0

/-- The magnitude is that of a number below `10 ^ 15`. -/
def IsShort (n : Nat) : Prop := Binary64.units n < Nat.pow 10 15 * Nat.pow 2 1074

instance (n : Nat) : Decidable (IsWhole n) := inferInstanceAs (Decidable (_ = _))

instance (n : Nat) : Decidable (IsShort n) := inferInstanceAs (Decidable (_ < _))

/-- A number as the display shows it. -/
def valueText (x : Float) : String :=
  let n := Binary64.magnitude x
  if IsWhole n ∧ IsShort n then
    String.ofList (sign x ++ Nat.toDigits 10 (Binary64.units n / Nat.pow 2 1074) ++ ".0".toList)
  else
    numberText x

/-! ### Outcomes -/

/-- What the display shows after a failure. -/
def marker : String := "Error"

/-- The display after an evaluation. -/
def outcomeText {ε : Type} : Except ε Float → String
  | .ok x => valueText x
  | .error _ => marker

end Calculator.Display
