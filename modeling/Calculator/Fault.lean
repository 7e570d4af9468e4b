import Calculator.Vocabulary
import Calculator.Display

/-! What can go wrong with an expression.

A `Fault` is a cause and knows nothing of places. An `EvalError` is a fault at a
position, or the one failure that has none: the operands and operators did not
pair up. Positions are offsets into the text; whether they count bytes or
characters is up to who made the error, and `mapPosition` passes from one to the
other. -/
namespace Calculator

/-! ### Causes -/

/-- Why a text cannot be cut into tokens. -/
inductive LexicalFault where
  /-- A run of digits and points that is no number. -/
  | malformedNumber (run : String)
  /-- No token starts with this character. -/
  | invalidCharacter (character : Char)
  deriving DecidableEq

inductive Fault where
  | lexical (fault : LexicalFault)
  /-- A function is not followed by a number. -/
  | missingNumber
  /-- A parenthesis has no partner. -/
  | unbalancedParenthesis
  | divisionByZero
  /-- The argument lies outside the domain of the function. -/
  | undefinedAt (function : UnaryFunction) (argument : Float)
  /-- The result of an operator or a function is infinite or no number. -/
  | notFinite
  deriving DecidableEq

inductive EvalError where
  | located (fault : Fault) (position : Nat)
  /-- Operands and operators do not pair up into one result. -/
  | incomplete
  deriving DecidableEq

/-! ### Positions -/

namespace EvalError

def mapPosition (place : Nat → Nat) : EvalError → EvalError
  | .located fault position => .located fault (place position)
  | .incomplete => .incomplete

end EvalError

/-! ### Messages -/

/-- What is reported for a fault at a position. -/
def Fault.message (position : Nat) : Fault → String
  | .lexical (.malformedNumber run) => s!"Malformed number '{run}' at position {position}."
  | .lexical (.invalidCharacter character) =>
    s!"Invalid character '{character}' at position {position}."
  | .missingNumber => s!"Expected a number at position {position}."
  | .unbalancedParenthesis => s!"Unbalanced parentheses at position {position}."
  | .divisionByZero => s!"Division by zero at position {position}."
  | .undefinedAt function argument =>
    s!"{function.name} is undefined for {Display.numberText argument} (position {position})."
  | .notFinite => s!"Result is not a finite number (position {position})."

def EvalError.message : EvalError → String
  | .located fault position => fault.message position
  | .incomplete => "Incomplete expression."

end Calculator
