import Calculator.Decimal

/-! Numbers as they are typed.

A literal is a run of digits and points. One point at most and one digit at least
make it `WellFormed`; it then denotes the `decimal` it spells, and its value is
the `Float` nearest to that. `value?` has no answer for any other run, nor for
one that is too large for a finite `Float`. -/
namespace Calculator.Decimal.Literal

/-- The characters a literal is made of. -/
def isNumeral (c : Char) : Bool := c.isDigit || c == '.'

/-- The digits of a run, without its points. -/
def digits (run : List Char) : List Char := run.filter Char.isDigit

/-- How many digits follow the point of a run. -/
def places (run : List Char) : Nat := (run.dropWhile Char.isDigit).length - 1

/-- One point at most and one digit at least. -/
def WellFormed (run : List Char) : Prop := run.count '.' ≤ 1 ∧ digits run ≠ []

instance (run : List Char) : Decidable (WellFormed run) :=
  inferInstanceAs (Decidable (_ ∧ _))

/-- What a well-formed run spells. -/
def decimal (run : List Char) : Decimal := ⟨Nat.ofDigitChars 10 (digits run) 0, -places run⟩

/-- The value of a run of digits and points, if it is a number. -/
def value? (run : List Char) : Option Float :=
  if WellFormed run then
    let n := (decimal run).magnitude
    if n < Binary64.infinity then some (Binary64.ofMagnitude n) else none
  else
    none

end Calculator.Decimal.Literal
