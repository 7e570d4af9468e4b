/-! The words of the calculator: four operators and five functions.

An operator stands between its two operands and binds as tightly as its
`precedence` says. A function stands before the one literal it applies to. -/
namespace Calculator

/-! ### Operators -/

inductive Operator where
  | add
  | sub
  | mul
  | div
  deriving DecidableEq

namespace Operator

def symbol : Operator → Char
  | .add => '+'
  | .sub => '-'
  | .mul => '*'
  | .div => '/'

/-- How tightly an operator binds. -/
def precedence : Operator → Nat
  | .add | .sub => 1
  | .mul | .div => 2

end Operator

/-! ### Functions -/

inductive UnaryFunction where
  | sin
  | cos
  | tan
  | log
  | sqrt
  deriving DecidableEq

namespace UnaryFunction

/-- The keyword of a function. -/
def name : UnaryFunction → String
  | .sin => "sin"
  | .cos => "cos"
  | .tan => "tan"
  | .log => "log"
  | .sqrt => "sqrt"

end Calculator.UnaryFunction
