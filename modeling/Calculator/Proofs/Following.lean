import Calculator.Proofs.Grammar

/-! The engine follows an outline.

Fed the tokens of an outline, the engine puts off some of its operators. All that is
known of its stacks afterwards is what settling makes of them: the stack of operands
on which the outline has run, and below it what was pending before (`Arrives`). This
is enough, since whatever comes next begins with settling: an operator that binds no
tighter than the outline, a right parenthesis, the end. So outlines can be followed
one inside another (`arrives_outline`), and a whole text has the value of its outline
(`value_outline`). -/
namespace Calculator.Engine

/-! ### Arriving -/

/-- The engine is between tokens, and its stacks settle to `target`. -/
structure Arrives (level : Nat) (engine : Except EvalError Engine)
    (target : Except EvalError (List Float × List Pending)) : Prop where
  waiting : ∀ e, engine = .ok e → e.waiting = none
  settled : (engine >>= fun e => settle level e.operands e.pending) = target

namespace Arrives
variable {level higher : Nat} {engine : Except EvalError Engine}
  {target : Except EvalError (List Float × List Pending)}

theorem error (level : Nat) (e : EvalError) : Arrives level (.error e) (.error e) where
  waiting := by
    intro _ h
    cases h
  settled := rfl

/-- What settles at once has arrived. -/
theorem of_settle {operands : List Float} {pending : List Pending}
    (h : settle level operands pending = target) :
    Arrives level (.ok ⟨operands, pending, none⟩) target where
  waiting := by
    intro e he
    cases he
    rfl
  settled := h

/-- Less is left if more is settled. -/
theorem loosen (h : Arrives higher engine target) (hle : level ≤ higher) :
    Arrives level engine (target >>= fun both => settle level both.1 both.2) where
  waiting := h.waiting
  settled := by
    rw [← h.settled, bind_assoc]
    congr
    funext e
    exact (settle_settle hle e.operands e.pending).symm

/-- A looser level may be all that is left to settle and find nothing to do. -/
theorem lower {result : Except EvalError (List Float)} {pending : List Pending}
    (h : Arrives higher engine (result >>= fun operands => .ok (operands, pending)))
    (hle : level ≤ higher) (hpending : Shielded level pending) :
    Arrives level engine (result >>= fun operands => .ok (operands, pending)) := by
  have hlower := h.loosen hle
  rw [bind_assoc] at hlower
  simpa only [ok_bind, settle_of_shielded hpending] using hlower

/-- What comes next and settles the stacks first finds them at the target. -/
theorem bind {β : Type} {next : Engine → Except EvalError β}
    {rest : List Float × List Pending → Except EvalError β} (h : Arrives level engine target)
    (hnext : ∀ operands pending,
      next ⟨operands, pending, none⟩ = settle level operands pending >>= rest) :
    (engine >>= next) = target >>= rest := by
  rw [← h.settled, bind_assoc]
  cases engine with
  | error e => rfl
  | ok e =>
    obtain ⟨operands, pending, waiting⟩ := e
    have hwaiting : waiting = none := h.waiting _ rfl
    rw [hwaiting]
    exact hnext operands pending

theorem operator {op : Operator} (h : Arrives op.precedence engine target) (start stop : Nat) :
    (engine >>= fun e => e.step ⟨.operator op, start, stop⟩) =
      target >>= fun both => .ok ⟨both.1, .operator op start :: both.2, none⟩ :=
  h.bind fun operands pending => step_operator operands pending start stop op

theorem rightParen (h : Arrives loosest engine target) (start stop : Nat) :
    (engine >>= fun e => e.step ⟨.rightParen, start, stop⟩) = target >>= closed start :=
  h.bind fun operands pending => step_rightParen operands pending start stop

theorem finish (h : Arrives loosest engine target) (stop : Nat) :
    (engine >>= fun e => e.finish (.complete stop)) = target >>= drained :=
  h.bind fun operands pending => finish_complete operands pending stop

/-- Nothing binds as tightly as level 3, so there is nothing to settle. -/
theorem eq_of_atoms (h : Arrives 3 engine target) :
    engine = target >>= fun both => .ok ⟨both.1, both.2, none⟩ := by
  rw [← bind_pure engine]
  refine h.bind fun operands pending => ?_
  have hshielded : Shielded 3 pending := by
    match pending with
    | [] => trivial
    | .leftParen _ :: _ => trivial
    | .operator op _ :: _ => exact precedence_lt_three op
  rw [settle_of_shielded hshielded]
  rfl

end Arrives

/-! ### Outlines -/

/-- **Fed the tokens of an outline, the engine runs it**, on any stack of operands and
above anything that is pending and does not bind as tightly. -/
theorem arrives_outline {level : Nat} (o : Outline level) (n : Nat) (operands : List Float)
    (pending : List Pending) (h : Shielded level pending) :
    Arrives level (feed ⟨operands, pending, none⟩ (numbered n o.tokens))
      (o.run n operands >>= fun operands => .ok (operands, pending)) := by
  induction o generalizing n operands pending with
  | empty => exact .of_settle (settle_of_shielded h operands)
  | number row x ih =>
    rw [Outline.tokens, numbered_append, feed_append,
      (ih n operands pending h).eq_of_atoms, Outline.run]
    cases row.run n operands with
    | error e => exact .error 3 e
    | ok operands => exact .of_settle (settle_of_shielded h _)
  | call row f x ih =>
    rw [Outline.tokens, numbered_append, feed_append,
      (ih n operands pending h).eq_of_atoms, Outline.run]
    cases row.run n operands with
    | error e => exact .error 3 e
    | ok operands =>
      show Arrives 3 (feed ⟨operands, pending, none⟩ [⟨.function f, _, _⟩, ⟨.number x, _, _⟩])
        ((located (n + row.tokens.length) (f.apply x) >>= _) >>= _)
      rw [feed_cons, step_function, ok_bind, feed_cons, step_argument]
      cases located (n + row.tokens.length) (f.apply x) with
      | error e => exact .error 3 e
      | ok y => exact .of_settle (settle_of_shielded h _)
  | group row inner ih ihInner =>
    rw [Outline.tokens, List.append_assoc, numbered_append, feed_append,
      (ih n operands pending h).eq_of_atoms, Outline.run]
    cases row.run n operands with
    | error e => exact .error 3 e
    | ok operands =>
      have hinner := ihInner (n + row.tokens.length + 1) operands
        (.leftParen (n + row.tokens.length) :: pending) trivial
      show Arrives 3 (feed ⟨operands, pending, none⟩ (numbered (n + row.tokens.length)
        (.leftParen :: (inner.tokens ++ [.rightParen])))) (inner.run _ operands >>= _)
      rw [numbered, feed_cons, step_leftParen, ok_bind, numbered_append, feed_append]
      simp only [numbered, feed_singleton]
      rw [hinner.rightParen]
      cases inner.run (n + row.tokens.length + 1) operands with
      | error e => exact .error 3 e
      | ok operands => exact .of_settle (settle_of_shielded h _)
  | term row ih => exact (ih n operands pending (h.mono (by decide))).lower (by decide) h
  | expression o ih => exact (ih n operands pending (h.mono (by decide))).lower (by decide) h
  | binary op left right ihLeft ihRight =>
    rw [Outline.tokens, numbered_append, feed_append, numbered]
    simp only [feed_cons]
    rw [← bind_assoc, (ihLeft n operands pending h).operator, Outline.run]
    cases left.run n operands with
    | error e => exact .error _ e
    | ok operands =>
      have hright := (ihRight (n + left.tokens.length + 1) operands
        (.operator op (n + left.tokens.length) :: pending) (Nat.lt_succ_self _)).loosen
        (Nat.le_succ _)
      simp only [ok_bind]
      cases hrun : right.run (n + left.tokens.length + 1) operands with
      | error e =>
        rw [hrun] at hright
        exact hright
      | ok operands =>
        rw [hrun, ok_bind, ok_bind, settle_operator (Nat.le_refl _)] at hright
        simpa only [ok_bind, settle_of_shielded h] using hright

/-- **A text has the value of its outline**: the operand that is left if it leaves one
alone. -/
theorem value_outline (o : Outline 1) :
    value o.tokens = o.run 0 [] >>= fun operands => drained (operands, []) := by
  have harrives := arrives_outline o 0 [] [] trivial
  show (feed ⟨[], [], none⟩ (numbered 0 o.tokens) >>= fun e => e.finish (.complete _)) = _
  rw [harrives.finish, bind_assoc]
  rfl

end Calculator.Engine
