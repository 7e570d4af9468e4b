import Calculator.Proofs.Running

/-! Places are names to the engine.

It notes where a lexeme starts and reports it, but never looks at it. So if every
place is given another name, by any function at all, the engine does the same with
the new names (`evaluate_renamed`). One text may then be read with its places in
bytes, in characters, in the characters of a longer text, or with its tokens merely
numbered, whichever suits. -/
namespace Calculator

/-! ### Results -/

/-- What becomes of a result if its value is mapped and its places are renamed. -/
def carry {α β : Type} (place : Nat → Nat) (f : α → β) : Except EvalError α → Except EvalError β
  | .ok a => .ok (f a)
  | .error e => .error (e.mapPosition place)

theorem carry_id {α : Type} (place : Nat → Nat) (r : Except EvalError α) :
    carry place id r = r.mapError (EvalError.mapPosition place) := by
  cases r <;> rfl

/-- Results carried over piece by piece are carried over as a whole. -/
theorem carry_bind {α β α' β' : Type} {place : Nat → Nat} {f : α → α'} {k : β → β'}
    {g : α → Except EvalError β} {g' : α' → Except EvalError β'}
    (h : ∀ a, g' (f a) = carry place k (g a)) (r : Except EvalError α) :
    (carry place f r >>= g') = carry place k (r >>= g) := by
  cases r with
  | ok a => exact h a
  | error e => rfl

/-! ### New names for places -/

def Pending.relabel (place : Nat → Nat) : Pending → Pending
  | .operator op i => .operator op (place i)
  | .leftParen i => .leftParen (place i)

def Engine.relabel (place : Nat → Nat) (engine : Engine) : Engine :=
  ⟨engine.operands, engine.pending.map (Pending.relabel place),
    engine.waiting.map fun waiting => (waiting.1, place waiting.2)⟩

def Ending.relabel (place : Nat → Nat) : Ending → Ending
  | .complete stop => .complete (place stop)
  | .fault cause start => .fault cause (place start)

/-- The second lexeme is the first with its start renamed. Where they stop is nobody's
concern. -/
def Lexeme.Renamed (place : Nat → Nat) (lexeme lexeme' : Lexeme) : Prop :=
  lexeme'.token = lexeme.token ∧ lexeme'.start = place lexeme.start

/-- The second text is the first with its places renamed. -/
structure Lexed.Renamed (place : Nat → Nat) (lexed lexed' : Lexed) : Prop where
  lexemes : List.Forall₂ (Lexeme.Renamed place) lexed.lexemes lexed'.lexemes
  ending : lexed'.ending = lexed.ending.relabel place

namespace Engine
variable (place : Nat → Nat)

/-! ### Reducing -/

theorem located_relabel {α : Type} (i : Nat) (r : Except Fault α) :
    located (place i) r = carry place id (located i r) := by
  cases r <;> rfl

theorem reduce_relabel (op : Operator) (i : Nat) (operands : List Float) :
    reduce op (place i) operands = carry place id (reduce op i operands) := by
  match operands with
  | [] => rfl
  | [_] => rfl
  | right :: left :: operands =>
    show (located (place i) (op.apply left right) >>= fun value => .ok (value :: operands)) = _
    rw [located_relabel]
    refine carry_bind (fun _ => ?_) _
    rfl

/-- Both stacks, with new names for the places on the second. -/
def relabelBoth (both : List Float × List Pending) : List Float × List Pending :=
  (both.1, both.2.map (Pending.relabel place))

theorem settle_relabel (level : Nat) (operands : List Float) (pending : List Pending) :
    settle level operands (pending.map (Pending.relabel place)) =
      carry place (relabelBoth place) (settle level operands pending) := by
  induction pending generalizing operands with
  | nil => rfl
  | cons entry pending ih =>
    cases entry with
    | leftParen i => rfl
    | operator op i =>
      show settle level operands (.operator op (place i) :: pending.map _) = _
      by_cases h : level ≤ op.precedence
      · rw [settle_operator h, settle_operator h, reduce_relabel]
        refine carry_bind (fun operands => ?_) _
        exact ih operands
      · have hlow : Shielded level (.operator op i :: pending) := Nat.not_le.mp h
        have hlow' : Shielded level (.operator op (place i) :: pending.map (Pending.relabel place)) :=
          Nat.not_le.mp h
        rw [settle_of_shielded hlow, settle_of_shielded hlow']
        rfl

/-! ### Lexemes -/

theorem step_renamed {lexeme lexeme' : Lexeme} (h : lexeme.Renamed place lexeme')
    (engine : Engine) :
    (engine.relabel place).step lexeme' = carry place (relabel place) (engine.step lexeme) := by
  obtain ⟨operands, pending, waiting⟩ := engine
  obtain ⟨_, start, stop⟩ := lexeme
  obtain ⟨token, _, stop'⟩ := lexeme'
  obtain ⟨htoken, hstart⟩ := h
  dsimp only at htoken hstart
  subst htoken hstart
  cases waiting with
  | some waiting =>
    obtain ⟨f, i⟩ := waiting
    cases token with
    | number x =>
      show step ⟨operands, pending.map _, some (f, place i)⟩ ⟨.number x, place start, stop'⟩ = _
      rw [step_argument, step_argument, located_relabel]
      refine carry_bind (fun y => ?_) _
      rfl
    | _ => rfl
  | none =>
    cases token with
    | operator op =>
      show step ⟨operands, pending.map _, none⟩ ⟨.operator op, place start, stop'⟩ = _
      rw [step_operator, step_operator, settle_relabel]
      refine carry_bind (fun both => ?_) _
      rfl
    | rightParen =>
      show step ⟨operands, pending.map _, none⟩ ⟨.rightParen, place start, stop'⟩ = _
      rw [step_rightParen, step_rightParen, settle_relabel]
      refine carry_bind (fun both => ?_) _
      rcases both with ⟨_, _ | _⟩ <;> rfl
    | _ => rfl

theorem feed_renamed {lexemes lexemes' : List Lexeme}
    (h : List.Forall₂ (Lexeme.Renamed place) lexemes lexemes') (engine : Engine) :
    (engine.relabel place).feed lexemes' = carry place (relabel place) (engine.feed lexemes) := by
  induction h generalizing engine with
  | nil => rfl
  | cons hlexeme _ ih =>
    rw [feed_cons, feed_cons, step_renamed place hlexeme]
    refine carry_bind (fun engine => ?_) _
    exact ih engine

/-! ### Texts -/

theorem finish_relabel (engine : Engine) (ending : Ending) :
    (engine.relabel place).finish (ending.relabel place) =
      carry place id (engine.finish ending) := by
  obtain ⟨operands, pending, waiting⟩ := engine
  cases ending with
  | fault cause start => rfl
  | complete stop =>
    cases waiting with
    | some waiting => rfl
    | none =>
      show finish ⟨operands, pending.map _, none⟩ (.complete (place stop)) = _
      rw [finish_complete, finish_complete, settle_relabel]
      refine carry_bind (fun both => ?_) _
      rcases both with ⟨_ | ⟨_, _ | _⟩, _ | ⟨_ | _, _⟩⟩ <;> rfl

/-- **The engine treats places as names.** -/
theorem evaluate_renamed {lexed lexed' : Lexed} (h : lexed.Renamed place lexed') :
    evaluate lexed' = (evaluate lexed).mapError (EvalError.mapPosition place) := by
  rw [← carry_id]
  show ((start.relabel place).feed lexed'.lexemes >>= fun engine => _) = _
  rw [feed_renamed place h.lexemes, h.ending]
  refine carry_bind (fun engine => ?_) _
  exact finish_relabel place engine _

end Engine

/-! ### Numbered tokens -/

/-- Tokens with their numbers for places, the first of them `n`. -/
def numbered (n : Nat) : List Token → List Lexeme
  | [] => []
  | token :: tokens => ⟨token, n, n + 1⟩ :: numbered (n + 1) tokens

theorem numbered_append (n : Nat) (tokens more : List Token) :
    numbered n (tokens ++ more) = numbered n tokens ++ numbered (n + tokens.length) more := by
  induction tokens generalizing n with
  | nil => rfl
  | cons token tokens ih =>
    rw [List.cons_append, numbered, ih, numbered, List.length_cons, List.cons_append]
    congr 3
    omega

theorem map_token_numbered (n : Nat) (tokens : List Token) :
    (numbered n tokens).map Lexeme.token = tokens := by
  induction tokens generalizing n with
  | nil => rfl
  | cons token tokens ih => rw [numbered, List.map_cons, ih]

/-- Lexemes are their numbered tokens, with places for names of the numbers. -/
theorem renamed_numbered {place : Nat → Nat} {lexemes : List Lexeme} {n : Nat}
    (h : ∀ i l, lexemes[i]? = some l → l.start = place (n + i)) :
    List.Forall₂ (Lexeme.Renamed place) (numbered n (lexemes.map Lexeme.token)) lexemes := by
  induction lexemes generalizing n with
  | nil => exact .nil
  | cons lexeme lexemes ih =>
    refine .cons ⟨rfl, h 0 lexeme rfl⟩ (ih fun i l hl => ?_)
    rw [h (i + 1) l hl]
    congr 1
    omega

/-- The value of tokens, or the first error among them. It is placed at the number of
a token, or at the number of all tokens if it arises after the last. -/
def Engine.value (tokens : List Token) : Except EvalError Float :=
  Engine.evaluate ⟨numbered 0 tokens, .complete tokens.length⟩

def Lexed.tokens (lexed : Lexed) : List Token := lexed.lexemes.map Lexeme.token

/-- The text was cut to its end. -/
def Lexed.Complete (lexed : Lexed) : Prop := ∃ stop, lexed.ending = .complete stop

instance (lexed : Lexed) : Decidable lexed.Complete :=
  match h : lexed.ending with
  | .complete stop => isTrue ⟨stop, h⟩
  | .fault _ _ => isFalse fun ⟨_, hstop⟩ => nomatch h.symm.trans hstop

/-- **The value of a text is the value of its tokens**, and its errors are theirs with
names for the numbers. -/
theorem evaluate_eq_value {source : String} {stop : Nat} (place : Nat → Nat)
    (hend : (lex source).ending = .complete stop)
    (hplace : ∀ i l, (lex source).lexemes[i]? = some l → l.start = place i)
    (hstop : place (lex source).lexemes.length = stop) :
    evaluate source = (Engine.value (lex source).tokens).mapError
      (EvalError.mapPosition fun i => charOffset source.toList (place i)) := by
  have hrenamed : Lexed.Renamed place
      ⟨numbered 0 (lex source).tokens, .complete (lex source).tokens.length⟩ (lex source) :=
    ⟨renamed_numbered fun i l hl => by rw [Nat.zero_add]; exact hplace i l hl, by
      rw [hend, Ending.relabel, Lexed.tokens, List.length_map, hstop]⟩
  rw [evaluate, Engine.evaluate_renamed place hrenamed, Engine.value]
  cases Engine.evaluate _ with
  | ok v => rfl
  | error e => cases e <;> rfl

/-- A text that cannot be cut has no value. -/
theorem complete_of_evaluate {source : String} {v : Float} (h : evaluate source = .ok v) :
    (lex source).Complete := by
  rw [evaluate, mapPosition_eq_ok_iff] at h
  obtain ⟨engine, -, h⟩ := bind_eq_ok h
  cases hend : (lex source).ending with
  | complete stop => exact ⟨stop, hend⟩
  | fault cause start =>
    rw [hend] at h
    cases h

theorem evaluate_eq_ok_iff_value {source : String} {v : Float} :
    evaluate source = .ok v ↔
      (lex source).Complete ∧ Engine.value (lex source).tokens = .ok v := by
  have heval : ∀ stop, (lex source).ending = .complete stop →
      (evaluate source = .ok v ↔ Engine.value (lex source).tokens = .ok v) := by
    intro stop hend
    rw [evaluate_eq_value
      (fun i => ((lex source).lexemes[i]?.map Lexeme.start).getD stop) hend
      (fun i l hl => by rw [hl]; rfl) (by simp), mapPosition_eq_ok_iff]
  constructor
  · intro h
    have hcomplete := complete_of_evaluate h
    obtain ⟨stop, hend⟩ := hcomplete
    exact ⟨⟨stop, hend⟩, (heval stop hend).mp h⟩
  · rintro ⟨⟨stop, hend⟩, h⟩
    exact (heval stop hend).mpr h

end Calculator
