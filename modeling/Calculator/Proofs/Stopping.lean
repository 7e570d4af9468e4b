import Calculator.Proofs.Blame

/-! Where a run stops.

An evaluation that fails either fails at a lexeme, which it has come to without an error,
or it has taken in all lexemes and fails at the end of the text (`evaluate_error_cases`).
At a lexeme there are few reasons (`step_error_cases`), and at the end of a complete text
fewer still (`finish_error_cases`). -/
namespace Calculator.Engine

/-! ### At a lexeme -/

/-- What a step that fails can have been. -/
theorem step_error_cases {engine : Engine} {l : Lexeme} {e : EvalError}
    (h : engine.step l = .error e) :
    (∃ f i x, engine.waiting = some (f, i) ∧ l.token = .number x ∧
      located i (f.apply x) = .error e) ∨
    (∃ f i, engine.waiting = some (f, i) ∧ ¬ l.token.IsNumber ∧
      e = .located .missingNumber l.start) ∨
    (engine.waiting = none ∧
      ((∃ level, settle level engine.operands engine.pending = .error e) ∨
      (∃ operands, l.token = .rightParen ∧
        settle loosest engine.operands engine.pending = .ok (operands, []) ∧
        e = .located .unbalancedParenthesis l.start))) := by
  obtain ⟨operands, pending, waiting⟩ := engine
  obtain ⟨token, start, stop⟩ := l
  cases waiting with
  | some waiting =>
    obtain ⟨f, i⟩ := waiting
    cases token with
    | number x =>
      rw [step_argument] at h
      rcases bind_eq_error h with h | ⟨_, _, h⟩
      · exact .inl ⟨f, i, x, rfl, rfl, h⟩
      · cases h
    | _ => cases h; exact .inr (.inl ⟨f, i, rfl, id, rfl⟩)
  | none =>
    refine .inr (.inr ⟨rfl, ?_⟩)
    cases token with
    | operator op =>
      rw [step_operator] at h
      rcases bind_eq_error h with h | ⟨_, _, h⟩
      · exact .inl ⟨op.precedence, h⟩
      · cases h
    | rightParen =>
      rw [step_rightParen] at h
      rcases bind_eq_error h with h | ⟨⟨operands', _ | _⟩, hsettle, h⟩
      · exact .inl ⟨loosest, h⟩
      · cases h; exact .inr ⟨operands', rfl, hsettle, rfl⟩
      · cases h
    | _ => cases h

/-- A run that fails, fails at one of its lexemes and has come to it without an error. -/
theorem exists_of_feed_error {engine : Engine} {lexemes : List Lexeme} {e : EvalError}
    (h : engine.feed lexemes = .error e) :
    ∃ before l after next, lexemes = before ++ l :: after ∧ engine.feed before = .ok next ∧
      next.step l = .error e := by
  induction lexemes generalizing engine with
  | nil => cases h
  | cons l lexemes ih =>
    rw [feed_cons] at h
    rcases bind_eq_error h with h | ⟨next, hstep, h⟩
    · exact ⟨[], l, lexemes, engine, rfl, rfl, h⟩
    · obtain ⟨before, l', after, last, rfl, hfeed, hfails⟩ := ih h
      exact ⟨l :: before, l', after, last, rfl, by rw [feed_cons, hstep]; exact hfeed, hfails⟩

/-! ### At the end -/

/-- Why the end of a complete text can be an error. -/
theorem finish_error_cases {engine : Engine} {stop : Nat} {e : EvalError}
    (h : engine.finish (.complete stop) = .error e) :
    e = .located .missingNumber stop ∨
    (∃ level, settle level engine.operands engine.pending = .error e) ∨
    (∃ operands i pending,
      settle loosest engine.operands engine.pending = .ok (operands, .leftParen i :: pending) ∧
      e = .located .unbalancedParenthesis i) ∨
    e = .incomplete := by
  obtain ⟨operands, pending, waiting⟩ := engine
  cases waiting with
  | some waiting => cases h; exact .inl rfl
  | none =>
    rw [finish_complete] at h
    rcases bind_eq_error h with h | ⟨⟨operands', pending'⟩, hsettle, h⟩
    · exact .inr (.inl ⟨loosest, h⟩)
    rcases (shielded_of_settle hsettle).eq_nil_or_leftParen with rfl | ⟨i, rest, rfl⟩
    · rcases operands' with _ | ⟨_, _ | _⟩ <;> cases h <;> exact .inr (.inr (.inr rfl))
    · rw [drained_leftParen] at h
      cases h
      exact .inr (.inr (.inl ⟨operands', i, rest, hsettle, rfl⟩))

/-! ### Altogether -/

variable {lexed : Lexed} {e : EvalError}

/-- An evaluation fails at a lexeme or behind the last one. -/
theorem evaluate_error_cases (h : evaluate lexed = .error e) :
    (∃ before l after engine, lexed.lexemes = before ++ l :: after ∧
      start.feed before = .ok engine ∧ engine.step l = .error e) ∨
    ∃ engine, start.feed lexed.lexemes = .ok engine ∧ engine.finish lexed.ending = .error e := by
  rcases bind_eq_error h with h | ⟨engine, hfeed, h⟩
  · exact .inl (exists_of_feed_error h)
  · exact .inr ⟨engine, hfeed, h⟩

/-- What goes wrong when operators are reduced is the fault of an operator. -/
theorem fault_of_settle {level i : Nat} {operands : List Float} {pending : List Pending}
    {fault : Fault} (h : settle level operands pending = .error (.located fault i)) :
    fault = .notFinite ∨ fault = .divisionByZero := by
  obtain ⟨op, a, b, -, hfault⟩ := apply_of_settle h
  rcases op.fault_cases hfault with rfl | ⟨rfl, -⟩
  · exact .inl rfl
  · exact .inr rfl

end Calculator.Engine
