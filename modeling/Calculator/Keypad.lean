import Calculator.Evaluation
import Calculator.Key

/-! The keypad: a display and the buttons that edit it.

A press appends the label of its key to the display. `C` clears the display
instead, and `=` evaluates it and puts the outcome in its place, so that further
keys continue from a result. -/
namespace Calculator

structure Keypad where
  display : String
  deriving DecidableEq

namespace Keypad

def blank : Keypad := ⟨""⟩

/-- What a press brings about besides the new display. -/
inductive Reaction where
  | edited
  | evaluated (outcome : Except EvalError Float)
  | unknownLabel (label : String)

/-- Nothing went wrong. -/
def Reaction.succeeded : Reaction → Bool
  | .edited => true
  | .evaluated (.ok _) => true
  | .evaluated (.error _) => false
  | .unknownLabel _ => false

/-- Presses a key. -/
def press (keypad : Keypad) : Key → Keypad × Reaction
  | .clear => (blank, .edited)
  | .equals =>
    let outcome := evaluate keypad.display
    (⟨Display.outcomeText outcome⟩, .evaluated outcome)
  | key => (⟨keypad.display ++ key.label⟩, .edited)

/-- Presses the key of a label. If there is none the display stays. -/
def pressLabel (keypad : Keypad) (label : String) : Keypad × Reaction :=
  match Key.ofLabel? label with
  | some key => keypad.press key
  | none => (keypad, .unknownLabel label)

/-! ### Many presses -/

/-- The keypad and the reaction after each of the labels. -/
def trace (keypad : Keypad) : List String → List (Keypad × Reaction)
  | [] => []
  | label :: labels =>
    let pressed := keypad.pressLabel label
    pressed :: trace pressed.1 labels

/-- One more press in a run: the keypad after it, and whether all went well so far. -/
def advance (run : Keypad × Bool) (label : String) : Keypad × Bool :=
  let pressed := run.1.pressLabel label
  (pressed.1, run.2 && pressed.2.succeeded)

/-- The keypad after all of the labels, and whether nothing went wrong. -/
def run (keypad : Keypad) (labels : List String) : Keypad × Bool :=
  labels.foldl advance (keypad, true)

end Calculator.Keypad
