import Mathlib
import Calculator.Evaluation

/-! How the engine runs.

One equation for each way in which a run goes on or stops, so that nothing below
has to open the engine again. `settle` is what is left of a step once the shape
of its lexeme is known: it reduces all that waits and binds at least as tightly as
some level. A right parenthesis and the end of a text settle everything. What a run of
reductions preserves is shown one reduction at a time, by induction on `Settles`, or on
`Reduces` if it holds also at the states in the middle of a step. -/
namespace Calculator

/-! ### Results -/

section Results
variable {ε α β : Type}

@[simp]
theorem ok_bind (a : α) (f : α → Except ε β) : (Except.ok a >>= f) = f a := rfl

@[simp]
theorem error_bind (e : ε) (f : α → Except ε β) : (Except.error e >>= f) = .error e := rfl

theorem bind_eq_ok {r : Except ε α} {f : α → Except ε β} {b : β} (h : (r >>= f) = .ok b) :
    ∃ a, r = .ok a ∧ f a = .ok b := by
  cases r with
  | ok a => exact ⟨a, rfl, h⟩
  | error e => cases h

theorem bind_eq_error {r : Except ε α} {f : α → Except ε β} {e : ε} (h : (r >>= f) = .error e) :
    r = .error e ∨ ∃ a, r = .ok a ∧ f a = .error e := by
  cases r with
  | ok a => exact .inr ⟨a, rfl, h⟩
  | error e' => cases h; exact .inl rfl

/-! Positions may be passed on in other units before or after a result is looked at. -/

variable {place : Nat → Nat} {r : Except EvalError α}

theorem mapPosition_eq_ok_iff {a : α} :
    r.mapError (EvalError.mapPosition place) = .ok a ↔ r = .ok a := by
  cases r with
  | ok b => exact Iff.rfl
  | error e => constructor <;> intro h <;> cases h

theorem mapPosition_eq_located_iff {fault : Fault} {i : Nat} :
    r.mapError (EvalError.mapPosition place) = .error (.located fault i) ↔
      ∃ j, r = .error (.located fault j) ∧ i = place j := by
  cases r with
  | ok b => simp [Except.mapError]
  | error e =>
    cases e with
    | incomplete => simp [Except.mapError, EvalError.mapPosition]
    | located cause j => simp [Except.mapError, EvalError.mapPosition, eq_comm]

end Results

namespace Engine

@[simp]
theorem located_ok {α : Type} (i : Nat) (a : α) : located i (.ok a) = .ok a := rfl

@[simp]
theorem located_error {α : Type} (i : Nat) (fault : Fault) :
    located i (.error fault : Except Fault α) = .error (.located fault i) := rfl

theorem located_eq_ok {α : Type} {i : Nat} {r : Except Fault α} {a : α} (h : located i r = .ok a) :
    r = .ok a := by
  cases r with
  | ok b => cases h; rfl
  | error fault => cases h

theorem located_eq_error {α : Type} {i j : Nat} {r : Except Fault α} {fault : Fault}
    (h : located i r = .error (.located fault j)) : r = .error fault ∧ j = i := by
  cases r with
  | ok a => cases h
  | error cause => cases h; exact ⟨rfl, rfl⟩

/-! ### Reducing -/

/-- The precedence from which on everything binds: that of the loosest operators. -/
def loosest : Nat := 1

/-- Reduces what waits and binds at least as tightly as `level`. -/
def settle (level : Nat) (operands : List Float) (pending : List Pending) :
    Except EvalError (List Float × List Pending) :=
  reduceWhile (fun op => level ≤ op.precedence) operands pending

/-- Nothing on top of the stack binds as tightly as `level`. -/
def Shielded (level : Nat) : List Pending → Prop
  | .operator op _ :: _ => op.precedence < level
  | _ => True

theorem Shielded.mono {level higher : Nat} {pending : List Pending} (h : Shielded level pending)
    (hle : level ≤ higher) : Shielded higher pending := by
  match pending, h with
  | [], _ => trivial
  | .leftParen _ :: _, _ => trivial
  | .operator op _ :: _, h => exact Nat.lt_of_lt_of_le h hle

theorem settle_of_shielded {level : Nat} {pending : List Pending} (h : Shielded level pending)
    (operands : List Float) : settle level operands pending = .ok (operands, pending) := by
  match pending, h with
  | [], _ => rfl
  | .leftParen _ :: _, _ => rfl
  | .operator op i :: _, h =>
    have hlow : ¬ level ≤ op.precedence := Nat.not_le.mpr h
    simp [settle, reduceWhile, hlow]

theorem settle_operator {level : Nat} {op : Operator} (h : level ≤ op.precedence) (i : Nat)
    (operands : List Float) (pending : List Pending) :
    settle level operands (.operator op i :: pending) =
      reduce op i operands >>= fun operands => settle level operands pending := by
  simp only [settle, reduceWhile, h, decide_true, if_true]
  cases reduce op i operands <;> rfl

/-- Settling a tighter level first makes no difference. -/
theorem settle_settle {level higher : Nat} (hle : level ≤ higher) (operands : List Float)
    (pending : List Pending) :
    (settle higher operands pending >>= fun r => settle level r.1 r.2) =
      settle level operands pending := by
  induction pending generalizing operands with
  | nil => rfl
  | cons entry pending ih =>
    cases entry with
    | leftParen i => rfl
    | operator op i =>
      by_cases h : higher ≤ op.precedence
      · rw [settle_operator h, settle_operator (Nat.le_trans hle h)]
        cases reduce op i operands with
        | error e => rfl
        | ok operands => exact ih operands
      · have hs : Shielded higher (.operator op i :: pending) := Nat.not_le.mp h
        rw [settle_of_shielded hs, ok_bind]

theorem loosest_le (op : Operator) : loosest ≤ op.precedence := by
  cases op <;> decide

/-- No operator binds as tightly as an operand holds together. -/
theorem precedence_lt_three (op : Operator) : op.precedence < 3 := by
  cases op <;> decide

/-- Settling from the loosest level on leaves no operator. -/
theorem reduceWhile_true (operands : List Float) (pending : List Pending) :
    reduceWhile (fun _ => true) operands pending = settle loosest operands pending := by
  simp only [settle, loosest_le, decide_true]

/-- Settling that succeeds, one operator after the other. -/
inductive Settles (level : Nat) :
    List Float → List Pending → List Float → List Pending → Prop where
  | shielded {operands : List Float} {pending : List Pending} (h : Shielded level pending) :
    Settles level operands pending operands pending
  | operator {op : Operator} {i : Nat} {operands next operands' : List Float}
    {pending pending' : List Pending} (hle : level ≤ op.precedence)
    (hreduce : reduce op i operands = .ok next) (h : Settles level next pending operands' pending') :
    Settles level operands (.operator op i :: pending) operands' pending'

theorem settles_of_settle {level : Nat} {operands operands' : List Float}
    {pending pending' : List Pending}
    (h : settle level operands pending = .ok (operands', pending')) :
    Settles level operands pending operands' pending' := by
  induction pending generalizing operands with
  | nil => cases h; exact .shielded trivial
  | cons entry pending ih =>
    cases entry with
    | leftParen i => cases h; exact .shielded trivial
    | operator op i =>
      by_cases hle : level ≤ op.precedence
      · rw [settle_operator hle] at h
        obtain ⟨next, hreduce, h⟩ := bind_eq_ok h
        exact .operator hle hreduce (ih h)
      · have hs : Shielded level (.operator op i :: pending) := Nat.not_le.mp hle
        rw [settle_of_shielded hs] at h
        cases h
        exact .shielded hs

/-- What is settled leaves nothing that binds as tightly on top. -/
theorem shielded_of_settle {level : Nat} {operands operands' : List Float}
    {pending pending' : List Pending}
    (h : settle level operands pending = .ok (operands', pending')) : Shielded level pending' := by
  replace h := settles_of_settle h
  induction h with
  | shielded hs => exact hs
  | operator _ _ _ ih => exact ih

/-- A left parenthesis is all that can be left on top. -/
theorem Shielded.eq_nil_or_leftParen {pending : List Pending} (h : Shielded loosest pending) :
    pending = [] ∨ ∃ i rest, pending = .leftParen i :: rest := by
  match pending, h with
  | [], _ => exact .inl rfl
  | .leftParen i :: rest, _ => exact .inr ⟨i, rest, rfl⟩
  | .operator op _ :: _, h => exact absurd (loosest_le op) (Nat.not_le.mpr h)

/-! ### States on the way -/

/-- The second engine is what the first becomes when some of its pending operators have been
reduced, one after the other. -/
inductive Reduces : Engine → Engine → Prop where
  | refl (engine : Engine) : Reduces engine engine
  | operator {op : Operator} {i : Nat} {operands next : List Float} {pending : List Pending}
    {waiting : Option (UnaryFunction × Nat)} {engine : Engine}
    (hreduce : reduce op i operands = .ok next) (h : Reduces ⟨next, pending, waiting⟩ engine) :
    Reduces ⟨operands, .operator op i :: pending, waiting⟩ engine

/-- Settling reduces, and so every state on the way is reached like this. -/
theorem reduces_of_settle {level : Nat} {operands operands' : List Float}
    {pending pending' : List Pending} (waiting : Option (UnaryFunction × Nat))
    (h : settle level operands pending = .ok (operands', pending')) :
    Reduces ⟨operands, pending, waiting⟩ ⟨operands', pending', waiting⟩ := by
  replace h := settles_of_settle h
  induction h with
  | shielded _ => exact .refl _
  | operator _ hreduce _ ih => exact .operator hreduce ih

/-- Settling that fails reduces as well, as far as to the operator that fails. -/
theorem exists_reduces_of_settle_error {level : Nat} {operands : List Float}
    {pending : List Pending} {e : EvalError} (waiting : Option (UnaryFunction × Nat))
    (h : settle level operands pending = .error e) :
    ∃ op i operands' rest,
      Reduces ⟨operands, pending, waiting⟩ ⟨operands', .operator op i :: rest, waiting⟩ ∧
        reduce op i operands' = .error e := by
  induction pending generalizing operands with
  | nil => cases h
  | cons entry pending ih =>
    cases entry with
    | leftParen i => cases h
    | operator op i =>
      by_cases hle : level ≤ op.precedence
      · rw [settle_operator hle] at h
        rcases bind_eq_error h with hfails | ⟨next, hreduce, h⟩
        · exact ⟨op, i, operands, pending, .refl _, hfails⟩
        · obtain ⟨op', i', operands', rest, hreduces, hfails⟩ := ih h
          exact ⟨op', i', operands', rest, .operator hreduce hreduces, hfails⟩
      · have hs : Shielded level (.operator op i :: pending) := Nat.not_le.mp hle
        rw [settle_of_shielded hs] at h
        cases h

/-- Reductions only take entries off the stack. -/
theorem suffix_of_reduces {engine engine' : Engine} (h : Reduces engine engine') :
    engine'.pending <:+ engine.pending := by
  induction h with
  | refl => exact List.suffix_rfl
  | operator _ _ ih => exact ih.trans (List.suffix_cons _ _)

theorem suffix_of_settle {level : Nat} {operands operands' : List Float}
    {pending pending' : List Pending}
    (h : settle level operands pending = .ok (operands', pending')) : pending' <:+ pending :=
  suffix_of_reduces (reduces_of_settle none h)

/-! ### One lexeme -/

section Step
variable (operands : List Float) (pending : List Pending) (start stop : Nat)

theorem step_function (f : UnaryFunction) :
    step ⟨operands, pending, none⟩ ⟨.function f, start, stop⟩ =
      .ok ⟨operands, pending, some (f, start)⟩ := rfl

theorem step_leftParen :
    step ⟨operands, pending, none⟩ ⟨.leftParen, start, stop⟩ =
      .ok ⟨operands, .leftParen start :: pending, none⟩ := rfl

theorem step_operator (op : Operator) :
    step ⟨operands, pending, none⟩ ⟨.operator op, start, stop⟩ =
      settle op.precedence operands pending >>= fun r =>
        .ok ⟨r.1, .operator op start :: r.2, none⟩ := rfl

theorem step_argument (f : UnaryFunction) (i : Nat) (x : Float) :
    step ⟨operands, pending, some (f, i)⟩ ⟨.number x, start, stop⟩ =
      located i (f.apply x) >>= fun y => .ok ⟨y :: operands, pending, none⟩ := rfl

/-- A right parenthesis removes the left one that settling has brought to the top. -/
def closed (start : Nat) : List Float × List Pending → Except EvalError Engine
  | (operands, _ :: pending) => .ok ⟨operands, pending, none⟩
  | (_, []) => .error (.located .unbalancedParenthesis start)

theorem step_rightParen :
    step ⟨operands, pending, none⟩ ⟨.rightParen, start, stop⟩ =
      settle loosest operands pending >>= closed start := by
  show close _ _ = _
  unfold close
  rw [reduceWhile_true]
  congr
  funext r
  rcases r with ⟨_, _ | _⟩ <;> rfl

end Step

/-- What a step that succeeds can have been. -/
theorem step_cases {engine engine' : Engine} {l : Lexeme} (h : engine.step l = .ok engine') :
    (∃ f i x y, engine.waiting = some (f, i) ∧ l.token = .number x ∧ f.apply x = .ok y ∧
      engine' = ⟨y :: engine.operands, engine.pending, none⟩) ∨
    (engine.waiting = none ∧
      ((∃ x, l.token = .number x ∧
        engine' = ⟨x :: engine.operands, engine.pending, none⟩) ∨
      (∃ f, l.token = .function f ∧
        engine' = ⟨engine.operands, engine.pending, some (f, l.start)⟩) ∨
      (∃ op operands pending, l.token = .operator op ∧
        settle op.precedence engine.operands engine.pending = .ok (operands, pending) ∧
        engine' = ⟨operands, .operator op l.start :: pending, none⟩) ∨
      (l.token = .leftParen ∧
        engine' = ⟨engine.operands, .leftParen l.start :: engine.pending, none⟩) ∨
      (∃ operands i pending, l.token = .rightParen ∧
        settle loosest engine.operands engine.pending = .ok (operands, .leftParen i :: pending) ∧
        engine' = ⟨operands, pending, none⟩))) := by
  obtain ⟨operands, pending, waiting⟩ := engine
  obtain ⟨token, start, stop⟩ := l
  cases waiting with
  | some waiting =>
    obtain ⟨f, i⟩ := waiting
    cases token with
    | number x =>
      rw [step_argument] at h
      obtain ⟨y, hy, h⟩ := bind_eq_ok h
      cases h
      exact .inl ⟨f, i, x, y, rfl, rfl, located_eq_ok hy, rfl⟩
    | _ => cases h
  | none =>
    refine .inr ⟨rfl, ?_⟩
    cases token with
    | number x => cases h; exact .inl ⟨x, rfl, rfl⟩
    | function f => cases h; exact .inr (.inl ⟨f, rfl, rfl⟩)
    | operator op =>
      rw [step_operator] at h
      obtain ⟨⟨operands', pending'⟩, hsettle, h⟩ := bind_eq_ok h
      cases h
      exact .inr (.inr (.inl ⟨op, operands', pending', rfl, hsettle, rfl⟩))
    | leftParen => cases h; exact .inr (.inr (.inr (.inl ⟨rfl, rfl⟩)))
    | rightParen =>
      rw [step_rightParen] at h
      obtain ⟨⟨operands', pending'⟩, hsettle, h⟩ := bind_eq_ok h
      rcases (shielded_of_settle hsettle).eq_nil_or_leftParen with rfl | ⟨i, pending', rfl⟩
      · cases h
      · cases h
        exact .inr (.inr (.inr (.inr ⟨operands', i, pending', rfl, hsettle, rfl⟩)))

/-- A function waits for the number behind it. -/
theorem waiting_of_function {engine engine' : Engine} {l : Lexeme} {f : UnaryFunction}
    (hl : l.token = .function f) (h : engine.step l = .ok engine') :
    engine'.waiting = some (f, l.start) := by
  rcases step_cases h with ⟨_, _, _, _, _, htoken, _, _⟩ | ⟨_, ⟨_, htoken, _⟩ |
    ⟨_, htoken, rfl⟩ | ⟨_, _, _, htoken, _, _⟩ | ⟨htoken, _⟩ | ⟨_, _, _, htoken, _, _⟩⟩
  all_goals rw [hl] at htoken
  all_goals cases htoken
  rfl

/-! ### Many lexemes -/

@[simp]
theorem feed_nil (engine : Engine) : engine.feed [] = .ok engine := rfl

theorem feed_cons (engine : Engine) (lexeme : Lexeme) (lexemes : List Lexeme) :
    engine.feed (lexeme :: lexemes) = engine.step lexeme >>= fun engine => engine.feed lexemes := rfl

theorem feed_singleton (engine : Engine) (lexeme : Lexeme) :
    engine.feed [lexeme] = engine.step lexeme := bind_pure _

theorem feed_append (engine : Engine) (lexemes more : List Lexeme) :
    engine.feed (lexemes ++ more) = engine.feed lexemes >>= fun engine => engine.feed more :=
  List.foldlM_append

/-! ### The end of a text -/

/-- What the end of a text makes of the stacks once they are settled. -/
def drained : List Float × List Pending → Except EvalError Float
  | (_, .leftParen i :: _) => .error (.located .unbalancedParenthesis i)
  | ([value], []) => .ok value
  | _ => .error .incomplete

/-- Only one operand and nothing pending make a value. -/
theorem drained_eq_ok_iff {both : List Float × List Pending} {v : Float} :
    drained both = .ok v ↔ both = ([v], []) := by
  rcases both with ⟨_ | ⟨x, _ | _⟩, _ | ⟨_ | _, _⟩⟩ <;> simp [drained]

theorem result_eq (engine : Engine) :
    engine.result = settle loosest engine.operands engine.pending >>= drained := by
  unfold result
  rw [reduceWhile_true]
  congr
  funext r
  rcases r with ⟨_ | ⟨_, _ | _⟩, _ | ⟨_ | _, _⟩⟩ <;> rfl

theorem finish_complete (operands : List Float) (pending : List Pending) (stop : Nat) :
    finish ⟨operands, pending, none⟩ (.complete stop) =
      settle loosest operands pending >>= drained := result_eq _

end Engine

/-! ### Arithmetic -/

/-- The faults of operators and functions, as opposed to those of the text. -/
def Fault.IsArithmetic : Fault → Prop
  | .divisionByZero | .undefinedAt _ _ | .notFinite => True
  | _ => False

def EvalError.IsArithmetic : EvalError → Prop
  | .located fault _ => fault.IsArithmetic
  | .incomplete => False

theorem isArithmetic_of_mapPosition {α : Type} {place : Nat → Nat} {r : Except EvalError α}
    (hr : ∀ e, r = .error e → e.IsArithmetic) {e : EvalError}
    (h : r.mapError (EvalError.mapPosition place) = .error e) : e.IsArithmetic := by
  cases r with
  | ok a => cases h
  | error e' =>
    have he' := hr e' rfl
    cases h
    cases e' with
    | located fault i => exact he'
    | incomplete => exact he'

theorem eq_notFinite_of_finite {x : Float} {fault : Fault} (h : finite x = .error fault) :
    fault = .notFinite := by
  unfold finite at h
  split at h
  · cases h
  · cases h
    rfl

/-- Only a divisor is refused beforehand. -/
theorem Operator.apply_cases (op : Operator) (a b : Float) :
    (op = .div ∧ op.apply a b = .error .divisionByZero) ∨ ∃ y, op.apply a b = finite y := by
  cases op with
  | div =>
    by_cases hzero : (b == 0) = true
    · exact .inl ⟨rfl, if_pos hzero⟩
    · exact .inr ⟨a / b, if_neg hzero⟩
  | add => exact .inr ⟨a + b, rfl⟩
  | sub => exact .inr ⟨a - b, rfl⟩
  | mul => exact .inr ⟨a * b, rfl⟩

/-- Only a quotient can fail for another reason than its size. -/
theorem Operator.fault_cases {op : Operator} {a b : Float} {fault : Fault}
    (h : op.apply a b = .error fault) :
    fault = .notFinite ∨ (fault = .divisionByZero ∧ op = .div) := by
  rcases op.apply_cases a b with ⟨hop, hzero⟩ | ⟨y, hy⟩
  · rw [hzero] at h
    cases h
    exact .inr ⟨rfl, hop⟩
  · rw [hy] at h
    exact .inl (eq_notFinite_of_finite h)

theorem Operator.isFinite_of_apply {op : Operator} {a b y : Float} (h : op.apply a b = .ok y) :
    y.isFinite = true := by
  rcases op.apply_cases a b with ⟨-, hzero⟩ | ⟨z, hz⟩
  · rw [hzero] at h
    cases h
  · rw [hz] at h
    exact isFinite_of_finite_eq_ok h

/-- A function either refuses its argument or has a value of some size. -/
theorem UnaryFunction.apply_cases (f : UnaryFunction) (x : Float) :
    f.apply x = .error (.undefinedAt f x) ∨ ∃ y, f.apply x = finite y := by
  cases f with
  | sin => exact .inr ⟨(x * degree).sin, rfl⟩
  | cos => exact .inr ⟨(x * degree).cos, rfl⟩
  | tan => exact .inr ⟨(x * degree).tan, rfl⟩
  | log =>
    by_cases hneg : x ≤ 0
    · exact .inl (if_pos hneg)
    · exact .inr ⟨x.log10, if_neg hneg⟩
  | sqrt =>
    by_cases hneg : x < 0
    · exact .inl (if_pos hneg)
    · exact .inr ⟨x.sqrt, if_neg hneg⟩

/-- A function that is undefined at its argument says so of itself and of that argument. -/
theorem UnaryFunction.fault_cases {f : UnaryFunction} {x : Float} {fault : Fault}
    (h : f.apply x = .error fault) : fault = .notFinite ∨ fault = .undefinedAt f x := by
  rcases f.apply_cases x with hundefined | ⟨y, hy⟩
  · rw [hundefined] at h
    cases h
    exact .inr rfl
  · rw [hy] at h
    exact .inl (eq_notFinite_of_finite h)

theorem UnaryFunction.isFinite_of_apply {f : UnaryFunction} {x y : Float}
    (h : f.apply x = .ok y) : y.isFinite = true := by
  rcases f.apply_cases x with hundefined | ⟨z, hz⟩
  · rw [hundefined] at h
    cases h
  · rw [hz] at h
    exact isFinite_of_finite_eq_ok h

theorem Operator.isArithmetic_of_apply {op : Operator} {a b : Float} {fault : Fault}
    (h : op.apply a b = .error fault) : fault.IsArithmetic := by
  rcases fault_cases h with rfl | ⟨rfl, _⟩ <;> trivial

theorem UnaryFunction.isArithmetic_of_apply {f : UnaryFunction} {x : Float} {fault : Fault}
    (h : f.apply x = .error fault) : fault.IsArithmetic := by
  rcases fault_cases h with rfl | rfl <;> trivial

theorem isArithmetic_of_located {α : Type} {i : Nat} {r : Except Fault α} {e : EvalError}
    (hr : ∀ fault, r = .error fault → fault.IsArithmetic)
    (h : Engine.located i r = .error e) : e.IsArithmetic := by
  cases r with
  | ok a => cases h
  | error fault =>
    cases h
    exact hr fault rfl

end Calculator
