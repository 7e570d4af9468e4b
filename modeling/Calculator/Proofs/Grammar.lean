import Calculator.Proofs.Places

/-! The grammar of expressions, and the wider one of all that the engine can follow.

A `Phrase` is a derivation in

    E := T {(+|-) T}    T := F {(*|/) F}    F := literal | function literal | '(' E ')'

and its `value` is computed by going through it from left to right, operands before
their operator. An `Outline` keeps to the same grammar but for one thing: its factors
are rows of any number of operands, none included. It has no value of its own. It
acts on a stack of operands, where each operator takes the latest two, wherever they
come from.

The level of a phrase or an outline is the precedence from which on operators may
stand in it outside of parentheses: 1 for `E`, 2 for `T`, 3 for `F`. A repetition
is grouped to the left, so one rule is enough for all operators: on its left an
operator has its own level and on its right the next. -/
namespace Calculator
open Engine (located)

/-! ### Phrases -/

/-- A derivation of an expression (level 1), a term (level 2) or a factor (level 3). -/
inductive Phrase : Nat → Type where
  | number (x : Float) : Phrase 3
  | call (f : UnaryFunction) (x : Float) : Phrase 3
  | group (inner : Phrase 1) : Phrase 3
  | term (e : Phrase 3) : Phrase 2
  | expression (e : Phrase 2) : Phrase 1
  | binary (op : Operator) (left : Phrase op.precedence) (right : Phrase (op.precedence + 1)) :
    Phrase op.precedence

namespace Phrase

def tokens : {level : Nat} → Phrase level → List Token
  | _, .number x => [.number x]
  | _, .call f x => [.function f, .number x]
  | _, .group inner => .leftParen :: inner.tokens ++ [.rightParen]
  | _, .term e => e.tokens
  | _, .expression e => e.tokens
  | _, .binary op left right => left.tokens ++ .operator op :: right.tokens

/-- The value of a phrase whose first token is token `n`, or the first error that is met
when operands are evaluated from left to right and before their operator. It is placed
at the operator or function that fails. -/
def value : {level : Nat} → Nat → Phrase level → Except EvalError Float
  | _, _, .number x => .ok x
  | _, n, .call f x => located n (f.apply x)
  | _, n, .group inner => inner.value (n + 1)
  | _, n, .term e => e.value n
  | _, n, .expression e => e.value n
  | _, n, .binary op left right => do
    let a ← left.value n
    let b ← right.value (n + left.tokens.length + 1)
    located (n + left.tokens.length) (op.apply a b)

end Phrase

/-! ### Neighbours -/

namespace Token

/-- What stands before an operand. -/
def Opens : Token → Prop
  | .operator _ | .leftParen => True
  | _ => False

/-- What stands behind an operand. -/
def Closes : Token → Prop
  | .operator _ | .rightParen => True
  | _ => False

/-- In an expression `t` may come next after `s`. -/
def Follows (s t : Token) : Prop :=
  match s with
  | .number _ | .rightParen => t.Closes
  | .function _ => ∃ x, t = .number x
  | .operator _ | .leftParen => ¬ t.Closes

/-- Operands and operators alternate, also within parentheses: every token may come next
after the one before it. The ends of a text are like parentheses. -/
def Alternating (tokens : List Token) : Prop :=
  (leftParen :: tokens ++ [rightParen]).IsChain Follows

theorem Opens.follows_iff {s t : Token} (h : s.Opens) : s.Follows t ↔ ¬ t.Closes := by
  cases s with
  | operator op => exact Iff.rfl
  | leftParen => exact Iff.rfl
  | _ => exact h.elim

end Token

theorem Phrase.isChain_between {level : Nat} (e : Phrase level) {p q : Token} (hp : p.Opens)
    (hq : q.Closes) : (p :: e.tokens ++ [q]).IsChain Token.Follows := by
  induction e generalizing p q with
  | number x =>
    have hx : p.Follows (.number x) := hp.follows_iff.mpr id
    exact .cons_cons hx (.cons_cons hq (.singleton _))
  | call f x =>
    have hf : p.Follows (.function f) := hp.follows_iff.mpr id
    exact .cons_cons hf (.cons_cons ⟨x, rfl⟩ (.cons_cons hq (.singleton _)))
  | group inner ih =>
    have hopen : p.Follows .leftParen := hp.follows_iff.mpr id
    have hinner := ih (p := .leftParen) (q := .rightParen) trivial trivial
    rw [tokens, List.cons_append, List.append_assoc]
    exact .cons_cons hopen (List.isChain_cons_split.mpr
      ⟨hinner, .cons_cons hq (.singleton _)⟩)
  | term e ih => exact ih hp hq
  | expression e ih => exact ih hp hq
  | binary op left right ihl ihr =>
    rw [tokens, List.cons_append, List.append_assoc]
    exact List.isChain_cons_split.mpr ⟨ihl hp (q := .operator op) trivial,
      ihr (p := .operator op) trivial hq⟩

theorem Phrase.alternating_tokens (e : Phrase 1) : Token.Alternating e.tokens :=
  e.isChain_between trivial trivial

/-! ### Outlines -/

/-- A phrase in which a row of operands, or nothing, may stand for each one. -/
inductive Outline : Nat → Type where
  | empty : Outline 3
  | number (row : Outline 3) (x : Float) : Outline 3
  | call (row : Outline 3) (f : UnaryFunction) (x : Float) : Outline 3
  | group (row : Outline 3) (inner : Outline 1) : Outline 3
  | term (row : Outline 3) : Outline 2
  | expression (o : Outline 2) : Outline 1
  | binary (op : Operator) (left : Outline op.precedence) (right : Outline (op.precedence + 1)) :
    Outline op.precedence

namespace Outline

def tokens : {level : Nat} → Outline level → List Token
  | _, .empty => []
  | _, .number row x => row.tokens ++ [.number x]
  | _, .call row f x => row.tokens ++ [.function f, .number x]
  | _, .group row inner => row.tokens ++ .leftParen :: inner.tokens ++ [.rightParen]
  | _, .term row => row.tokens
  | _, .expression o => o.tokens
  | _, .binary op left right => left.tokens ++ .operator op :: right.tokens

/-- The stack of operands after an outline whose first token is token `n`. Operands are
put on it from left to right, and an operator is applied when what is on its right has
been gone through. -/
def run : {level : Nat} → Nat → Outline level → List Float → Except EvalError (List Float)
  | _, _, .empty, operands => .ok operands
  | _, n, .number row x, operands => do
    let operands ← row.run n operands
    return x :: operands
  | _, n, .call row f x, operands => do
    let operands ← row.run n operands
    let y ← located (n + row.tokens.length) (f.apply x)
    return y :: operands
  | _, n, .group row inner, operands => do
    let operands ← row.run n operands
    inner.run (n + row.tokens.length + 1) operands
  | _, n, .term row, operands => row.run n operands
  | _, n, .expression o, operands => o.run n operands
  | _, n, .binary op left right, operands => do
    let operands ← left.run n operands
    let operands ← right.run (n + left.tokens.length + 1) operands
    Engine.reduce op (n + left.tokens.length) operands

end Outline

/-! ### Phrases as outlines -/

/-- The outline of a phrase, with one operand in each row. -/
def Phrase.outline : {level : Nat} → Phrase level → Outline level
  | _, .number x => .number .empty x
  | _, .call f x => .call .empty f x
  | _, .group inner => .group .empty inner.outline
  | _, .term e => .term e.outline
  | _, .expression e => .expression e.outline
  | _, .binary op left right => .binary op left.outline right.outline

variable {level : Nat}

theorem Phrase.tokens_outline (e : Phrase level) : e.outline.tokens = e.tokens := by
  induction e with
  | number x => rfl
  | call f x => rfl
  | group inner ih => simp [outline, Outline.tokens, tokens, ih]
  | term e ih => exact ih
  | expression e ih => exact ih
  | binary op left right ihl ihr => simp [outline, Outline.tokens, tokens, ihl, ihr]

/-- A phrase puts its value on the stack and leaves the rest of it alone. -/
theorem Phrase.run_outline (e : Phrase level) (n : Nat) (operands : List Float) :
    e.outline.run n operands = e.value n >>= fun v => .ok (v :: operands) := by
  induction e generalizing n operands with
  | number x => rfl
  | call f x => rfl
  | group inner ih => exact ih (n + 1) operands
  | term e ih => exact ih n operands
  | expression e ih => exact ih n operands
  | binary op left right ihl ihr =>
    simp only [outline, Outline.run, value, ihl, ihr, tokens_outline, bind_assoc]
    rfl

end Calculator
