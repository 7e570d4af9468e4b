import Calculator.Proofs.Spelling

/-! What an error is about.

Many errors come late: the engine meets a division by zero when it reduces, and has
noted the place of the operator long before. `Lexed.Blames` says at which lexeme each
fault is to be placed. Whatever is pending stems from a lexeme that has been taken in
(`Engine.Stems`), every step keeps it so, and therefore every error is placed where it
belongs (`blames_of_evaluate`). -/
namespace Calculator

/-! ### Faults and their places -/

/-- The fault belongs to this place of a text. -/
inductive Lexed.Blames (lexed : Lexed) : Fault → Nat → Prop where
  /-- No token starts here. -/
  | uncut {cause : LexicalFault} {i : Nat} (hending : lexed.ending = .fault cause i) :
    Blames lexed (.lexical cause) i
  /-- The text ends here, behind a function. -/
  | unfollowed {before : List Lexeme} {l : Lexeme} {f : UnaryFunction} {stop : Nat}
    (hlexemes : lexed.lexemes = before ++ [l]) (htoken : l.token = .function f)
    (hending : lexed.ending = .complete stop) : Blames lexed .missingNumber stop
  /-- A function comes right before this token, which is no number. -/
  | misapplied {before after : List Lexeme} {l next : Lexeme} {f : UnaryFunction}
    (hlexemes : lexed.lexemes = before ++ l :: next :: after) (htoken : l.token = .function f)
    (hnext : ¬ next.token.IsNumber) : Blames lexed .missingNumber next.start
  /-- A parenthesis. -/
  | parenthesis {l : Lexeme} (hmem : l ∈ lexed.lexemes)
    (htoken : l.token = .leftParen ∨ l.token = .rightParen) :
    Blames lexed .unbalancedParenthesis l.start
  /-- An operator that fails. -/
  | operator {l : Lexeme} {op : Operator} {a b : Float} {fault : Fault} (hmem : l ∈ lexed.lexemes)
    (htoken : l.token = .operator op) (hfault : op.apply a b = .error fault) :
    Blames lexed fault l.start
  /-- A function that fails at the number after it. -/
  | function {before after : List Lexeme} {l next : Lexeme} {f : UnaryFunction} {x : Float}
    {fault : Fault} (hlexemes : lexed.lexemes = before ++ l :: next :: after)
    (htoken : l.token = .function f) (hnext : next.token = .number x)
    (hfault : f.apply x = .error fault) : Blames lexed fault l.start

/-- A fault is placed where the text cannot be cut, or at its end behind a function, or at
one of its lexemes. -/
theorem Lexed.Blames.cases {lexed : Lexed} {fault : Fault} {i : Nat} (h : lexed.Blames fault i) :
    (∃ cause, fault = .lexical cause ∧ lexed.ending = .fault cause i) ∨
      (fault = .missingNumber ∧ lexed.ending = .complete i ∧
        ∃ before l f, lexed.lexemes = before ++ [l] ∧ l.token = .function f) ∨
      ∃ l ∈ lexed.lexemes, l.start = i ∧ ∀ cause, fault ≠ .lexical cause := by
  cases h with
  | uncut hending => exact .inl ⟨_, rfl, hending⟩
  | unfollowed hlexemes htoken hending =>
    exact .inr (.inl ⟨rfl, hending, _, _, _, hlexemes, htoken⟩)
  | misapplied hlexemes => exact .inr (.inr ⟨_, by simp [hlexemes], rfl, nofun⟩)
  | parenthesis hmem => exact .inr (.inr ⟨_, hmem, rfl, nofun⟩)
  | operator hmem _ hfault =>
    refine .inr (.inr ⟨_, hmem, rfl, ?_⟩)
    rcases Operator.fault_cases hfault with rfl | ⟨rfl, _⟩ <;> exact nofun
  | function hlexemes _ _ hfault =>
    refine .inr (.inr ⟨_, by simp [hlexemes], rfl, ?_⟩)
    rcases UnaryFunction.fault_cases hfault with rfl | rfl <;> exact nofun

/-! ### Where pending entries come from -/

/-- The lexeme left this entry on the stack. -/
def Pending.StemsFrom (l : Lexeme) : Pending → Prop
  | .operator op i => l.token = .operator op ∧ l.start = i
  | .leftParen i => l.token = .leftParen ∧ l.start = i

namespace Engine

/-- All that the engine keeps for later stems from the lexemes it has seen, and a function
that waits for its number from the last of them. -/
structure Stems (seen : List Lexeme) (engine : Engine) : Prop where
  pending : ∀ entry ∈ engine.pending, ∃ l ∈ seen, entry.StemsFrom l
  waiting : ∀ f i, engine.waiting = some (f, i) →
    ∃ before l, seen = before ++ [l] ∧ l.token = .function f ∧ l.start = i

theorem stems_start : Stems [] start where
  pending := fun _ h => by cases h
  waiting := fun _ _ h => by cases h

theorem stems_of_step {seen : List Lexeme} {engine engine' : Engine} {l : Lexeme}
    (hstems : Stems seen engine) (h : engine.step l = .ok engine') :
    Stems (seen ++ [l]) engine' := by
  have hkept : ∀ entry ∈ engine.pending, ∃ l' ∈ seen ++ [l], entry.StemsFrom l' := by
    intro entry hentry
    obtain ⟨l', hl', hfrom⟩ := hstems.pending entry hentry
    exact ⟨l', List.mem_append_left _ hl', hfrom⟩
  have hlast : l ∈ seen ++ [l] := by simp
  rcases step_cases h with ⟨f, i, x, y, _, _, _, rfl⟩ | ⟨_, ⟨x, _, rfl⟩ | ⟨f, htoken, rfl⟩ |
    ⟨op, operands, pending, htoken, hsettle, rfl⟩ | ⟨htoken, rfl⟩ |
    ⟨operands, i, pending, _, hsettle, rfl⟩⟩
  · exact ⟨hkept, fun _ _ h => by cases h⟩
  · exact ⟨hkept, fun _ _ h => by cases h⟩
  · refine ⟨hkept, fun _ _ h => ?_⟩
    cases h
    exact ⟨seen, l, rfl, htoken, rfl⟩
  · refine ⟨fun entry hentry => ?_, fun _ _ h => by cases h⟩
    rcases List.mem_cons.mp hentry with rfl | hentry
    · exact ⟨l, hlast, htoken, rfl⟩
    · exact hkept entry ((suffix_of_settle hsettle).subset hentry)
  · refine ⟨fun entry hentry => ?_, fun _ _ h => by cases h⟩
    rcases List.mem_cons.mp hentry with rfl | hentry
    · exact ⟨l, hlast, htoken, rfl⟩
    · exact hkept entry hentry
  · refine ⟨fun entry hentry => ?_, fun _ _ h => by cases h⟩
    exact hkept entry ((suffix_of_settle hsettle).subset (List.mem_cons_of_mem _ hentry))

/-! ### Errors -/

theorem apply_of_reduce {op : Operator} {i j : Nat} {operands : List Float} {fault : Fault}
    (h : reduce op i operands = .error (.located fault j)) :
    j = i ∧ ∃ a b, op.apply a b = .error fault := by
  match operands with
  | [] => cases h
  | [_] => cases h
  | b :: a :: operands =>
    rcases bind_eq_error h with h | ⟨_, _, h⟩
    · obtain ⟨hfault, rfl⟩ := located_eq_error h
      exact ⟨rfl, a, b, hfault⟩
    · cases h

/-- Settling fails at an operator that is pending. -/
theorem apply_of_settle {level i : Nat} {operands : List Float} {pending : List Pending}
    {fault : Fault} (h : settle level operands pending = .error (.located fault i)) :
    ∃ op a b, .operator op i ∈ pending ∧ op.apply a b = .error fault := by
  obtain ⟨op, j, operands', rest, hreduces, hfails⟩ := exists_reduces_of_settle_error none h
  obtain ⟨rfl, a, b, hfault⟩ := apply_of_reduce hfails
  exact ⟨op, a, b, (suffix_of_reduces hreduces).subset List.mem_cons_self, hfault⟩

/-- What is left open at the end is reported, whatever the operands. -/
theorem drained_leftParen (operands : List Float) (i : Nat) (pending : List Pending) :
    drained (operands, .leftParen i :: pending) = .error (.located .unbalancedParenthesis i) := by
  rcases operands with _ | ⟨_, _ | _⟩ <;> rfl

variable {lexed : Lexed} {seen : List Lexeme} {engine : Engine} {fault : Fault} {i : Nat}

theorem blames_of_settle (hseen : seen ⊆ lexed.lexemes) (hstems : Stems seen engine) {level : Nat}
    (h : settle level engine.operands engine.pending = .error (.located fault i)) :
    lexed.Blames fault i := by
  obtain ⟨op, a, b, hmem, hfault⟩ := apply_of_settle h
  obtain ⟨l, hl, htoken, rfl⟩ := hstems.pending _ hmem
  exact .operator (hseen hl) htoken hfault

theorem blames_of_step {l : Lexeme} {after : List Lexeme}
    (hlexemes : lexed.lexemes = seen ++ l :: after) (hstems : Stems seen engine)
    (h : engine.step l = .error (.located fault i)) : lexed.Blames fault i := by
  have hseen : seen ⊆ lexed.lexemes := by simp [hlexemes]
  have hl : l ∈ lexed.lexemes := by simp [hlexemes]
  obtain ⟨operands, pending, waiting⟩ := engine
  cases waiting with
  | some waiting =>
    obtain ⟨f, j⟩ := waiting
    obtain ⟨before, last, rfl, hlast, rfl⟩ := hstems.waiting f j rfl
    rw [List.append_assoc] at hlexemes
    obtain ⟨token, start, stop⟩ := l
    cases token with
    | number x =>
      rw [step_argument] at h
      rcases bind_eq_error h with h | ⟨_, _, h⟩
      · obtain ⟨hfault, rfl⟩ := located_eq_error h
        exact .function hlexemes hlast rfl hfault
      · cases h
    | _ => cases h; exact .misapplied hlexemes hlast id
  | none =>
    obtain ⟨token, start, stop⟩ := l
    cases token with
    | operator op =>
      rw [step_operator] at h
      rcases bind_eq_error h with h | ⟨_, _, h⟩
      · exact blames_of_settle hseen hstems h
      · cases h
    | rightParen =>
      rw [step_rightParen] at h
      rcases bind_eq_error h with h | ⟨⟨_, _ | _⟩, _, h⟩
      · exact blames_of_settle hseen hstems h
      · cases h
        exact .parenthesis hl (.inr rfl)
      · cases h
    | _ => cases h

/-- A run either fails where it should or leaves an engine that stems from all lexemes. -/
theorem blames_or_stems_of_feed {lexemes : List Lexeme}
    (hlexemes : lexed.lexemes = seen ++ lexemes) (hstems : Stems seen engine) :
    (∀ fault i, engine.feed lexemes = .error (.located fault i) → lexed.Blames fault i) ∧
      ∀ engine', engine.feed lexemes = .ok engine' → Stems lexed.lexemes engine' := by
  induction lexemes generalizing seen engine with
  | nil =>
    rw [List.append_nil] at hlexemes
    refine ⟨fun _ _ h => (by cases h), fun engine' h => ?_⟩
    cases h
    rwa [hlexemes]
  | cons l lexemes ih =>
    rw [feed_cons]
    cases hstep : engine.step l with
    | error e =>
      refine ⟨fun fault i h => ?_, fun _ h => by cases h⟩
      cases h
      exact blames_of_step hlexemes hstems hstep
    | ok next =>
      rw [List.append_cons] at hlexemes
      exact ih hlexemes (stems_of_step hstems hstep)

theorem blames_of_finish (hstems : Stems lexed.lexemes engine)
    (h : engine.finish lexed.ending = .error (.located fault i)) : lexed.Blames fault i := by
  obtain ⟨operands, pending, waiting⟩ := engine
  cases hending : lexed.ending with
  | fault cause start =>
    rw [hending] at h
    cases h
    exact .uncut hending
  | complete stop =>
    rw [hending] at h
    cases waiting with
    | some waiting =>
      obtain ⟨f, j⟩ := waiting
      obtain ⟨before, last, hlexemes, hlast, rfl⟩ := hstems.waiting f j rfl
      cases h
      exact .unfollowed hlexemes hlast hending
    | none =>
      rw [finish_complete] at h
      rcases bind_eq_error h with h | ⟨⟨operands', pending'⟩, hsettle, h⟩
      · exact blames_of_settle (List.Subset.refl _) hstems h
      rcases (shielded_of_settle hsettle).eq_nil_or_leftParen with rfl | ⟨j, rest, rfl⟩
      · rcases operands' with _ | ⟨_, _ | _⟩ <;> cases h
      · obtain ⟨l, hl, htoken, rfl⟩ := hstems.pending (.leftParen j)
          ((suffix_of_settle hsettle).subset List.mem_cons_self)
        rw [drained_leftParen] at h
        cases h
        exact .parenthesis hl (.inl htoken)

/-- **Every error is placed where it belongs.** -/
theorem blames_of_evaluate (h : Engine.evaluate lexed = .error (.located fault i)) :
    lexed.Blames fault i := by
  have hlexemes : lexed.lexemes = [] ++ lexed.lexemes := rfl
  obtain ⟨hfails, hgoes⟩ := blames_or_stems_of_feed hlexemes stems_start
  rcases bind_eq_error h with h | ⟨engine, hfeed, h⟩
  · exact hfails fault i h
  · exact blames_of_finish (hgoes engine hfeed) h

end Engine
end Calculator
