import Calculator.Vocabulary

/-! The buttons of the calculator.

Every button carries a label, and labels tell buttons apart: `ofLabel?` finds the
button of a label (`ofLabel?_label`). The square root is the one button that can
also be called by another name. -/
namespace Calculator

inductive Key where
  | digit (value : Fin 10)
  | point
  | operator (op : Operator)
  | function (f : UnaryFunction)
  | leftParen
  | rightParen
  | equals
  | clear
  deriving DecidableEq

namespace Key

/-- What is printed on a button. -/
def label : Key → String
  | .digit value => String.singleton value.val.digitChar
  | .point => "."
  | .operator op => String.singleton op.symbol
  | .function .sqrt => "√"
  | .function f => f.name
  | .leftParen => "("
  | .rightParen => ")"
  | .equals => "="
  | .clear => "C"

/-- The buttons as they are laid out, row by row. -/
def layout : List (List Key) :=
  [[.digit 7, .digit 8, .digit 9, .operator .div],
   [.digit 4, .digit 5, .digit 6, .operator .mul],
   [.digit 1, .digit 2, .digit 3, .operator .sub],
   [.digit 0, .point, .equals, .operator .add],
   [.function .sin, .function .cos, .function .tan, .function .log],
   [.leftParen, .rightParen, .clear, .function .sqrt]]

/-- All buttons, in layout order. -/
def all : List Key := layout.flatten

theorem mem_all (key : Key) : key ∈ all := by
  cases key with
  | digit value => revert value; decide
  | operator op => cases op <;> decide
  | function f => cases f <;> decide
  | _ => decide

/-- The button of a digit, for a number up to nine. -/
def ofNat? (n : Nat) : Option Key := if h : n < 10 then some (.digit ⟨n, h⟩) else none

/-- The button of a label. The keyword of the square root is another label for its
button. -/
def ofLabel? (label : String) : Option Key :=
  if label = UnaryFunction.sqrt.name then
    some (.function .sqrt)
  else
    all.find? fun key => key.label == label

/-- What is reported for a label that no button carries. -/
def unknownMessage (label : String) : String := s!"Unknown key '{label}'."

theorem ofLabel?_label (key : Key) : ofLabel? key.label = some key := by
  cases key with
  | digit value => revert value; decide +kernel
  | operator op => cases op <;> decide +kernel
  | function f => cases f <;> decide +kernel
  | _ => decide +kernel

end Calculator.Key
