import Calculator.Binary64

/-! Decimal fractions.

`Decimal` is a natural number of `digits` and a power of ten. It is what a typed
literal denotes and what a displayed result is written from, so the two sides of
reading and writing meet here: `magnitude` is the number nearest to a decimal and
`text` spells it with a point and without an exponent. -/
namespace Calculator

/-- The fraction `digits * 10 ^ exponent`. -/
structure Decimal where
  digits : Nat
  exponent : Int

namespace Decimal

/-! ### Value -/

/-- A decimal is the quotient of its numerator and its denominator. -/
def numerator (d : Decimal) : Nat := d.digits * Nat.pow 10 d.exponent.toNat

def denominator (d : Decimal) : Nat := Nat.pow 10 (-d.exponent).toNat

/-- The magnitude of the number nearest to a decimal. -/
def magnitude (d : Decimal) : Nat := Binary64.nearest d.numerator d.denominator

theorem denominator_pos (d : Decimal) : 0 < d.denominator := Nat.pow_pos (by decide)

/-! ### Positional text -/

/-- The digits of `n`, with zeros before them if they are fewer than `width`. -/
def padded (width n : Nat) : List Char :=
  let ds := Nat.toDigits 10 n
  List.replicate (width - ds.length) '0' ++ ds

/-- A decimal written out in full: a digit at least before the point, and a point
only if the exponent is negative. -/
def text (d : Decimal) : List Char :=
  match d.exponent with
  | .ofNat zeros => Nat.toDigits 10 d.digits ++ List.replicate zeros '0'
  | .negSucc n =>
    let ds := padded (n + 2) d.digits
    let whole := ds.length - (n + 1)
    ds.take whole ++ '.' :: ds.drop whole

theorem le_length_padded (width n : Nat) : width ≤ (padded width n).length := by
  simp only [padded, List.length_append, List.length_replicate]
  omega

end Calculator.Decimal
