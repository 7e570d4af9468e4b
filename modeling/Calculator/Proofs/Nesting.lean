import Calculator.Proofs.Places

/-! What any text with a value has in common.

Its parentheses are balanced, and each of its functions stands before a number
(`balanced_of_value`, `applied_of_value`). The engine keeps count of the first: the
left parentheses on its stack are always those that are still open. -/
namespace Calculator

/-! ### Tokens -/

namespace Token

/-- The number of open parentheses after a token. A right one needs one to close. -/
def nest : Token → Nat → Option Nat
  | .leftParen, n => some (n + 1)
  | .rightParen, 0 => none
  | .rightParen, n + 1 => some n
  | _, n => some n

/-- The number of open parentheses after tokens, if each right one closes a left one. -/
def openAfter (n : Nat) (tokens : List Token) : Option Nat :=
  tokens.foldlM (fun n token => token.nest n) n

/-- Each parenthesis has a partner. -/
def Balanced (tokens : List Token) : Prop := openAfter 0 tokens = some 0

instance (tokens : List Token) : Decidable (Balanced tokens) := inferInstanceAs (Decidable (_ = _))

/-- Each function stands directly before a number. -/
def Applied (tokens : List Token) : Prop :=
  ∀ before f after, tokens = before ++ .function f :: after →
    ∃ x rest, after = .number x :: rest

theorem openAfter_cons (n : Nat) (token : Token) (tokens : List Token) :
    openAfter n (token :: tokens) = token.nest n >>= fun n => openAfter n tokens := rfl

theorem Applied.tail {token : Token} {tokens : List Token} (h : Applied (token :: tokens)) :
    Applied tokens :=
  fun before f after heq => h (token :: before) f after (by rw [heq, List.cons_append])

end Token

/-! ### The engine -/

namespace Engine

/-- The number of left parentheses among what is pending. -/
def opened : List Pending → Nat
  | [] => 0
  | .leftParen _ :: pending => opened pending + 1
  | .operator _ _ :: pending => opened pending

/-- The places of the left parentheses among what is pending, the latest first. -/
def leftParens : List Pending → List Nat
  | [] => []
  | .leftParen i :: pending => i :: leftParens pending
  | .operator _ _ :: pending => leftParens pending

theorem opened_eq_length (pending : List Pending) :
    opened pending = (leftParens pending).length := by
  induction pending with
  | nil => rfl
  | cons entry pending ih =>
    cases entry with
    | leftParen i => exact congrArg (· + 1) ih
    | operator op i => exact ih

/-- Settling touches no parenthesis. -/
theorem leftParens_of_settle {level : Nat} {operands operands' : List Float}
    {pending pending' : List Pending}
    (h : settle level operands pending = .ok (operands', pending')) :
    leftParens pending' = leftParens pending := by
  replace h := settles_of_settle h
  induction h with
  | shielded _ => rfl
  | operator _ _ _ ih => exact ih

theorem opened_of_settle {level : Nat} {operands operands' : List Float}
    {pending pending' : List Pending}
    (h : settle level operands pending = .ok (operands', pending')) :
    opened pending' = opened pending := by
  rw [opened_eq_length, leftParens_of_settle h, ← opened_eq_length]

/-- The engine opens and closes what its lexemes do. -/
theorem nest_of_step {engine engine' : Engine} {l : Lexeme} (h : engine.step l = .ok engine') :
    l.token.nest (opened engine.pending) = some (opened engine'.pending) := by
  rcases step_cases h with ⟨f, i, x, y, _, htoken, _, rfl⟩ | ⟨_, ⟨x, htoken, rfl⟩ |
    ⟨f, htoken, rfl⟩ | ⟨op, operands, pending, htoken, hsettle, rfl⟩ | ⟨htoken, rfl⟩ |
    ⟨operands, i, pending, htoken, hsettle, rfl⟩⟩
  · rw [htoken]; rfl
  · rw [htoken]; rfl
  · rw [htoken]; rfl
  · rw [htoken, ← opened_of_settle hsettle]; rfl
  · rw [htoken]; rfl
  · rw [htoken, ← opened_of_settle hsettle]; rfl

theorem openAfter_of_feed {engine engine' : Engine} {lexemes : List Lexeme}
    (h : engine.feed lexemes = .ok engine') :
    Token.openAfter (opened engine.pending) (lexemes.map Lexeme.token) =
      some (opened engine'.pending) := by
  induction lexemes generalizing engine with
  | nil => cases h; rfl
  | cons l lexemes ih =>
    rw [feed_cons] at h
    obtain ⟨next, hstep, h⟩ := bind_eq_ok h
    rw [List.map_cons, Token.openAfter_cons, nest_of_step hstep]
    exact ih h

/-! ### Values -/

/-- A value is what the end of the text makes of a run that succeeds. -/
theorem cases_of_value {tokens : List Token} {v : Float} (h : value tokens = .ok v) :
    ∃ operands pending, start.feed (numbered 0 tokens) = .ok ⟨operands, pending, none⟩ ∧
      settle loosest operands pending = .ok ([v], []) := by
  obtain ⟨⟨operands, pending, waiting⟩, hfeed, h⟩ := bind_eq_ok h
  cases waiting with
  | some waiting => cases h
  | none =>
    rw [finish_complete] at h
    obtain ⟨⟨operands', pending'⟩, hsettle, h⟩ := bind_eq_ok h
    cases drained_eq_ok_iff.mp h
    exact ⟨operands, pending, hfeed, hsettle⟩

theorem balanced_of_value {tokens : List Token} {v : Float} (h : value tokens = .ok v) :
    Token.Balanced tokens := by
  obtain ⟨operands, pending, hfeed, hsettle⟩ := cases_of_value h
  have hopened : opened pending = 0 := (opened_of_settle hsettle).symm
  have hafter := openAfter_of_feed hfeed
  rw [map_token_numbered, hopened] at hafter
  exact hafter

theorem applied_of_value {tokens : List Token} {v : Float} (h : value tokens = .ok v) :
    Token.Applied tokens := by
  rintro before f after rfl
  obtain ⟨operands, pending, hfeed, -⟩ := cases_of_value h
  rw [numbered_append, feed_append, numbered] at hfeed
  obtain ⟨engine, -, hfeed⟩ := bind_eq_ok hfeed
  rw [feed_cons] at hfeed
  obtain ⟨waiting, hstep, hfeed⟩ := bind_eq_ok hfeed
  -- After the function the engine waits for its argument, and the end is no argument.
  have hwaiting : waiting.waiting = some (f, 0 + before.length) := waiting_of_function rfl hstep
  cases after with
  | nil =>
    cases hfeed
    cases hwaiting
  | cons token rest =>
    rw [numbered, feed_cons] at hfeed
    obtain ⟨_, hstep, -⟩ := bind_eq_ok hfeed
    rcases step_cases hstep with ⟨_, _, x, _, _, htoken, _, _⟩ | ⟨hnone, _⟩
    · exact ⟨x, rest, by rw [← htoken]⟩
    · rw [hwaiting] at hnone
      cases hnone

end Engine
end Calculator
