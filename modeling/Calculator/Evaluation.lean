import Calculator.Engine

/-! Evaluating a text.

`evaluate` gives the value of an expression or the first error in it. Errors
reach the user with positions in characters, which `charOffset` counts. -/
namespace Calculator

/-- The number of characters before byte `byte`, with `count` already passed. -/
def charOffsetFrom (count : Nat) : List Char → Nat → Nat
  | [], _ => count
  | c :: text, byte =>
    if byte = 0 then count else charOffsetFrom (count + 1) text (byte - c.utf8Size)

/-- The number of characters of a text before byte `byte`. -/
def charOffset (text : List Char) (byte : Nat) : Nat := charOffsetFrom 0 text byte

/-- The value of an expression, or the first error in it. -/
def evaluate (source : String) : Except EvalError Float :=
  (Engine.evaluate (lex source)).mapError (EvalError.mapPosition (charOffset source.toList))

end Calculator
