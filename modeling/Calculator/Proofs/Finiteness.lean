import Calculator.Proofs.Bits
import Calculator.Proofs.Munching

/-! Only finite numbers circulate.

A literal is finite and has no sign, every operator and every function refuses what is
not finite, and so the operands of the engine stay finite, in the middle of a step
(`finite_of_reduces`) and from one step to the next (`finite_of_feed`), as does what an
evaluation gives (`isFinite_of_evaluate`). -/
namespace Calculator

/-! ### Literals -/

theorem Decimal.Literal.exists_of_value? {run : List Char} {x : Float}
    (h : Decimal.Literal.value? run = some x) :
    ∃ n, n < Binary64.infinity ∧ x = Binary64.ofMagnitude n := by
  unfold value? at h
  split at h
  · dsimp only at h
    split at h
    · next hlt =>
      cases h
      exact ⟨_, hlt, rfl⟩
    · cases h
  · cases h

/-- A number in a text is finite and has a clear sign. -/
theorem literal_of_mem_lex {source : String} {l : Lexeme} {x : Float}
    (hl : l ∈ (lex source).lexemes) (hx : l.token = .number x) :
    x.isFinite = true ∧ Binary64.negative x = false := by
  obtain ⟨_, word, _, _, _, _, hspells, _⟩ := standsIn_lex source l hl
  rw [hx] at hspells
  obtain ⟨n, hn, rfl⟩ := Decimal.Literal.exists_of_value? hspells.2
  exact ⟨Binary64.isFinite_ofMagnitude hn, Binary64.negative_ofMagnitude hn⟩

/-! ### The engine -/

namespace Engine

def Finite (operands : List Float) : Prop := ∀ x ∈ operands, x.isFinite = true

variable {operands operands' : List Float}

theorem Finite.cons {x : Float} (hx : x.isFinite = true) (h : Finite operands) :
    Finite (x :: operands) := by
  intro y hy
  rcases List.mem_cons.mp hy with rfl | hy
  · exact hx
  · exact h y hy

theorem finite_of_reduce {op : Operator} {i : Nat} (hfinite : Finite operands)
    (h : reduce op i operands = .ok operands') : Finite operands' := by
  match operands with
  | [] => cases h
  | [_] => cases h
  | b :: a :: operands =>
    obtain ⟨y, hy, h⟩ := bind_eq_ok h
    cases h
    exact .cons (Operator.isFinite_of_apply (located_eq_ok hy)) fun x hx => hfinite x (by simp [hx])

variable {engine engine' : Engine}

/-- Reductions keep the operands finite. -/
theorem finite_of_reduces (hfinite : Finite engine.operands) (h : Reduces engine engine') :
    Finite engine'.operands := by
  induction h with
  | refl => exact hfinite
  | operator hreduce _ ih => exact ih (finite_of_reduce hfinite hreduce)

theorem finite_of_settle {level : Nat} {pending pending' : List Pending} (hfinite : Finite operands)
    (h : settle level operands pending = .ok (operands', pending')) : Finite operands' :=
  finite_of_reduces hfinite (reduces_of_settle none h)

/-- **The operands after a step.** They are those of a state that reductions reach, below the
number of the lexeme or what a function makes of it if the lexeme has one. -/
theorem exists_reduces_of_step {l : Lexeme} (h : engine.step l = .ok engine') :
    ∃ settled, engine.Reduces settled ∧ (engine'.operands = settled.operands ∨
      ∃ x y, l.token = .number x ∧ (y = x ∨ ∃ f : UnaryFunction, f.apply x = .ok y) ∧
        engine'.operands = y :: settled.operands) := by
  rcases step_cases h with ⟨f, i, x, y, _, htoken, happly, rfl⟩ | ⟨_, ⟨x, htoken, rfl⟩ |
    ⟨f, _, rfl⟩ | ⟨op, operands, pending, _, hsettle, rfl⟩ | ⟨_, rfl⟩ |
    ⟨operands, i, pending, _, hsettle, rfl⟩⟩
  · exact ⟨engine, .refl _, .inr ⟨x, y, htoken, .inr ⟨f, happly⟩, rfl⟩⟩
  · exact ⟨engine, .refl _, .inr ⟨x, x, htoken, .inl rfl, rfl⟩⟩
  · exact ⟨engine, .refl _, .inl rfl⟩
  · exact ⟨_, reduces_of_settle engine.waiting hsettle, .inl rfl⟩
  · exact ⟨engine, .refl _, .inl rfl⟩
  · exact ⟨_, reduces_of_settle engine.waiting hsettle, .inl rfl⟩

theorem finite_of_step {l : Lexeme} (hl : ∀ x, l.token = .number x → x.isFinite = true)
    (hfinite : Finite engine.operands) (h : engine.step l = .ok engine') :
    Finite engine'.operands := by
  obtain ⟨settled, hreduces, hoperands⟩ := exists_reduces_of_step h
  have hsettled := finite_of_reduces hfinite hreduces
  rcases hoperands with hoperands | ⟨x, y, htoken, hy, hoperands⟩
  · rw [hoperands]
    exact hsettled
  · rw [hoperands]
    rcases hy with rfl | ⟨f, happly⟩
    · exact .cons (hl y htoken) hsettled
    · exact .cons (UnaryFunction.isFinite_of_apply happly) hsettled

/-- **Finite numbers in, finite operands all along.** -/
theorem finite_of_feed {lexemes : List Lexeme}
    (hl : ∀ l ∈ lexemes, ∀ x, l.token = .number x → x.isFinite = true)
    (hfinite : Finite engine.operands) (h : engine.feed lexemes = .ok engine') :
    Finite engine'.operands := by
  induction lexemes generalizing engine with
  | nil => cases h; exact hfinite
  | cons l lexemes ih =>
    rw [feed_cons] at h
    obtain ⟨next, hstep, h⟩ := bind_eq_ok h
    have hnext := finite_of_step (hl l List.mem_cons_self) hfinite hstep
    exact ih (fun l' hl' => hl l' (List.mem_cons_of_mem _ hl')) hnext h

theorem isFinite_of_finish {ending : Ending} {v : Float} (hfinite : Finite engine.operands)
    (h : engine.finish ending = .ok v) : v.isFinite = true := by
  obtain ⟨operands, pending, waiting⟩ := engine
  cases ending with
  | fault cause start => cases h
  | complete stop =>
    cases waiting with
    | some waiting => cases h
    | none =>
      rw [finish_complete] at h
      obtain ⟨both, hsettle, h⟩ := bind_eq_ok h
      cases drained_eq_ok_iff.mp h
      exact finite_of_settle hfinite hsettle v List.mem_cons_self

end Engine

/-- **A value is finite.** -/
theorem isFinite_of_evaluate {source : String} {v : Float} (h : evaluate source = .ok v) :
    v.isFinite = true := by
  obtain ⟨engine, hfeed, hfinish⟩ := bind_eq_ok (mapPosition_eq_ok_iff.mp h)
  have hstart : Engine.Finite Engine.start.operands := fun _ hx => by cases hx
  have hfinite := Engine.finite_of_feed (fun l hl x hx => (literal_of_mem_lex hl hx).1) hstart hfeed
  exact Engine.isFinite_of_finish hfinite hfinish

end Calculator
