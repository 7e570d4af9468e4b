import Calculator.Arithmetic
import Calculator.Lexeme

/-! The engine that evaluates lexemes as they come.

It holds two stacks. Numbers go to the `operands`. An operator waits among the
`pending` until its right operand is complete, which is when an operator that
binds no tighter comes by, or a right parenthesis, or the end; then it is reduced,
that is, applied to the two latest operands. A left parenthesis waits for its
partner and shields what is pending below it. A function waits for nothing but
the number after it. -/
namespace Calculator

/-- What waits on the engine's second stack. -/
inductive Pending where
  | operator (op : Operator) (position : Nat)
  | leftParen (position : Nat)
  deriving DecidableEq

/-- Both stacks have their latest entry first. -/
structure Engine where
  operands : List Float
  pending : List Pending
  /-- A function whose argument comes next. -/
  waiting : Option (UnaryFunction × Nat)
  deriving DecidableEq

namespace Engine

def start : Engine := ⟨[], [], none⟩

/-- A fault where it arose. -/
def located {α : Type} (position : Nat) (result : Except Fault α) : Except EvalError α :=
  result.mapError (EvalError.located · position)

/-! ### Reducing -/

/-- Applies an operator to the two latest operands. -/
def reduce (op : Operator) (position : Nat) : List Float → Except EvalError (List Float)
  | right :: left :: operands => do
    let value ← located position (op.apply left right)
    return value :: operands
  | _ => .error .incomplete

/-- Reduces the latest pending operators as long as they are `due`, down to the latest
left parenthesis at most. -/
def reduceWhile (due : Operator → Bool) (operands : List Float) :
    List Pending → Except EvalError (List Float × List Pending)
  | .operator op position :: pending =>
    if due op then
      match reduce op position operands with
      | .ok operands => reduceWhile due operands pending
      | .error e => .error e
    else
      .ok (operands, .operator op position :: pending)
  | pending => .ok (operands, pending)

/-! ### One lexeme -/

/-- Reduces what binds at least as tightly as `op`, then lets `op` wait. -/
def defer (engine : Engine) (op : Operator) (position : Nat) : Except EvalError Engine := do
  let (operands, pending) ←
    reduceWhile (fun other => op.precedence ≤ other.precedence) engine.operands engine.pending
  return { engine with operands, pending := .operator op position :: pending }

/-- Reduces back to the latest left parenthesis and removes it. -/
def close (engine : Engine) (position : Nat) : Except EvalError Engine := do
  let (operands, pending) ← reduceWhile (fun _ => true) engine.operands engine.pending
  match pending with
  | _ :: pending => return { engine with operands, pending }
  | [] => .error (.located .unbalancedParenthesis position)

/-- Takes in one lexeme. -/
def step (engine : Engine) (lexeme : Lexeme) : Except EvalError Engine :=
  match engine.waiting with
  | some (f, position) =>
    match lexeme.token with
    | .number x => do
      let value ← located position (f.apply x)
      return { engine with operands := value :: engine.operands, waiting := none }
    | _ => .error (.located .missingNumber lexeme.start)
  | none =>
    match lexeme.token with
    | .number x => .ok { engine with operands := x :: engine.operands }
    | .function f => .ok { engine with waiting := some (f, lexeme.start) }
    | .operator op => engine.defer op lexeme.start
    | .leftParen => .ok { engine with pending := .leftParen lexeme.start :: engine.pending }
    | .rightParen => engine.close lexeme.start

/-! ### A whole text -/

/-- Takes in lexemes up to the first error. -/
def feed (engine : Engine) (lexemes : List Lexeme) : Except EvalError Engine :=
  lexemes.foldlM step engine

/-- Reduces all that is pending. A left parenthesis among it was never closed, and one
operand must be left. -/
def result (engine : Engine) : Except EvalError Float := do
  let (operands, pending) ← reduceWhile (fun _ => true) engine.operands engine.pending
  match pending, operands with
  | .leftParen position :: _, _ => .error (.located .unbalancedParenthesis position)
  | [], [value] => return value
  | _, _ => .error .incomplete

/-- Ends the text after the last lexeme. -/
def finish (engine : Engine) : Ending → Except EvalError Float
  | .fault fault start => .error (.located (.lexical fault) start)
  | .complete stop =>
    if engine.waiting.isSome then .error (.located .missingNumber stop) else engine.result

/-- The value of a text, or its first error, whose position counts bytes. -/
def evaluate (lexed : Lexed) : Except EvalError Float := do
  let engine ← start.feed lexed.lexemes
  engine.finish lexed.ending

end Calculator.Engine
