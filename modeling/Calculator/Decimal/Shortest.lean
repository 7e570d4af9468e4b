import Calculator.Decimal

/-! The shortest decimal of a number.

Many decimals have the same number nearest to them. Of those that read back as a
given one, `shortest` finds the decimal with the fewest digits, and of several
with that many the one closest to the number.

A magnitude is a whole multiple of `10 ^ -1074`, so every comparison here is one
of natural numbers. The multiples of a power of ten form a grid. On each grid
only the two neighbours of the number need a look: if any point of the grid reads
back, one of them does. The search starts at a grid coarser than the number
itself and refines it until a neighbour reads back. -/
namespace Calculator.Decimal

/-- The number of magnitude `n` in multiples of `10 ^ -1074`. -/
def exactly (n : Nat) : Nat := Binary64.units n * Nat.pow 5 1074

/-- `k` steps of the grid whose step is `10 ^ j` multiples of `10 ^ -1074`. -/
def gridPoint (j k : Nat) : Decimal := ⟨k, (j : Int) - 1074⟩

/-- The neighbour of `n` on grid `j` that reads back as `n`.

If both do, the nearer one; halfway between them, the upper one. -/
def neighbour? (n j : Nat) : Option Decimal :=
  let step := Nat.pow 10 j
  let below := gridPoint j (exactly n / step)
  let above := gridPoint j (exactly n / step + 1)
  if below.magnitude = n then
    if above.magnitude = n ∧ step ≤ 2 * (exactly n % step) then some above else some below
  else if above.magnitude = n then
    some above
  else
    none

/-- The candidate on the coarsest grid that has one, from grid `j` on downwards, and `last`
if there is none. -/
def coarsest (candidate? : Nat → Option Decimal) (last : Decimal) : Nat → Decimal
  | 0 => last
  | j + 1 =>
    match candidate? (j + 1) with
    | some d => d
    | none => coarsest candidate? last j

/-- The shortest decimal that reads back as the magnitude `n`. The finest grid holds the
number itself. -/
def shortest (n : Nat) : Decimal :=
  if n = 0 then
    ⟨0, 0⟩
  else
    coarsest (neighbour? n) (gridPoint 0 (exactly n)) (Nat.toDigits 10 (exactly n)).length

end Calculator.Decimal
