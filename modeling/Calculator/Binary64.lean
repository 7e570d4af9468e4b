/-! The numbers of the calculator, seen from their bits.

A `Float` is a sign bit above 63 bits of *magnitude*. Magnitudes are compared
and counted as natural numbers: the finite ones are those below `infinity`, their
order is the order of the numbers, and `units` says which number each of them is,
in multiples of `2 ^ -1074`, the distance between the least two numbers.

`nearest` goes the other way. It takes any quotient of natural numbers to the
magnitude of the number nearest to it, and of two equally near to the one whose
last bit is zero. -/
namespace Calculator.Binary64

/-! ### Sign and magnitude -/

/-- The magnitude of infinity; every larger one is that of no number. -/
def infinity : Nat := 2047 * Nat.pow 2 52

/-- The sign bit is set; so it is for `-0`. -/
def negative (x : Float) : Bool := decide (Nat.pow 2 63 ≤ x.toBits.toNat)

/-- All bits but the sign. -/
def magnitude (x : Float) : Nat := x.toBits.toNat % Nat.pow 2 63

/-- The number with a clear sign bit and the magnitude `n`. -/
def ofMagnitude (n : Nat) : Float := Float.ofBits (UInt64.ofNat n)

/-- The number that the finite magnitude `n` stands for, in multiples of `2 ^ -1074`.

Below `2 ^ 52` the magnitude counts them itself. Above, its low 52 bits follow a
leading one, and the bits over them say how often that is doubled. -/
def units (n : Nat) : Nat :=
  let leading := Nat.pow 2 52
  if n < leading then n else (leading + n % leading) * Nat.pow 2 (n / leading - 1)

/-! ### Rounding -/

/-- The integer nearest to `num / den`, and the even one of two equally near. -/
def roundHalfEven (num den : Nat) : Nat :=
  let whole := num / den
  let twice := 2 * (num % den)
  if twice < den ∨ (twice = den ∧ whole % 2 = 0) then whole else whole + 1

/-- The magnitude of the number nearest to `num / den`.

In multiples of `2 ^ -1074` and halved `s` times, the quotient has 53 bits before its
point, or fewer if `s` is zero. Rounding up to a 54th bit needs no care: it carries into
the bits above, and the result is the next magnitude. -/
def nearest (num den : Nat) : Nat :=
  let scaled := num * Nat.pow 2 1074
  let s := (scaled / den).log2 - 52
  s * Nat.pow 2 52 + roundHalfEven scaled (den * Nat.pow 2 s)

end Calculator.Binary64
