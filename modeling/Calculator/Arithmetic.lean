import Calculator.Fault

/-! Applying operators and functions to numbers.

The sums, products and elementary functions themselves are those of `Float`. What
is decided here is which results count: `finite` refuses infinities and whatever
is no number, so that only finite numbers ever circulate, and some arguments are
refused beforehand for a reason of their own. -/
namespace Calculator

/-- A finite number as it is, and a fault in place of any other. -/
def finite (x : Float) : Except Fault Float := if x.isFinite then .ok x else .error .notFinite

theorem isFinite_of_finite_eq_ok {x y : Float} (h : finite x = .ok y) : y.isFinite = true := by
  unfold finite at h
  split at h
  · next hx => cases h; exact hx
  · cases h

/-- `left` operator `right`. A divisor equal to zero, of either sign, is refused. -/
def Operator.apply (op : Operator) (left right : Float) : Except Fault Float :=
  match op with
  | .add => finite (left + right)
  | .sub => finite (left - right)
  | .mul => finite (left * right)
  | .div => if right == 0 then .error .divisionByZero else finite (left / right)

/-- One degree in radians: the number nearest to the quotient of the number nearest
to `π` by 180. -/
def degree : Float := Float.ofBits 0x3f91df46a2529d39

/-- A function at an argument. Angles are in degrees; `log` is to base ten. -/
def UnaryFunction.apply (f : UnaryFunction) (x : Float) : Except Fault Float :=
  match f with
  | .sin => finite (x * degree).sin
  | .cos => finite (x * degree).cos
  | .tan => finite (x * degree).tan
  | .log => if x ≤ 0 then .error (.undefinedAt .log x) else finite x.log10
  | .sqrt => if x < 0 then .error (.undefinedAt .sqrt x) else finite x.sqrt

end Calculator
