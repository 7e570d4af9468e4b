import Calculator.Proofs.Following
import Calculator.Proofs.Spelling

/-! Expressions have the value that their grammar gives them.

`evaluate_expression`: write out the tokens of a phrase in any way, and the text
evaluates to the value of the phrase. If there is none, the error is the one that is
met first when the phrase is gone through, and it is one of arithmetic. -/
namespace Calculator

/-! ### Phrases -/

namespace Phrase
variable {level : Nat}

theorem isArithmetic_of_value {e : Phrase level} {n : Nat} {err : EvalError}
    (h : e.value n = .error err) : err.IsArithmetic := by
  induction e generalizing n with
  | number x => cases h
  | call f x => exact isArithmetic_of_located (fun _ => UnaryFunction.isArithmetic_of_apply) h
  | group inner ih => exact ih h
  | term e ih => exact ih h
  | expression e ih => exact ih h
  | binary op left right ihl ihr =>
    rw [value] at h
    cases hl : left.value n with
    | error err' =>
      rw [hl] at h
      cases h
      exact ihl hl
    | ok a =>
      rw [hl, ok_bind] at h
      cases hr : right.value (n + left.tokens.length + 1) with
      | error err' =>
        rw [hr] at h
        cases h
        exact ihr hr
      | ok b =>
        rw [hr, ok_bind] at h
        exact isArithmetic_of_located (fun _ => Operator.isArithmetic_of_apply) h

/-- The engine gives the tokens of an expression the value of the expression. -/
theorem engine_value (e : Phrase 1) : Engine.value e.tokens = e.value 0 := by
  rw [← tokens_outline, Engine.value_outline, run_outline]
  cases e.value 0 <;> rfl

end Phrase

/-- In an expression no number comes next after another. -/
theorem Layout.separate_of_tokens {layout : Layout} {e : Phrase 1}
    (h : layout.tokens = e.tokens) : Separate layout.pieces := by
  have hchain := e.alternating_tokens.left_of_append.tail
  rw [← h, tokens, List.tail_cons, List.isChain_map] at hchain
  refine hchain.imp fun p q hpq hp hq => ?_
  obtain ⟨_, token, _, _, _⟩ := p
  obtain ⟨_, token', _, _, _⟩ := q
  cases token with
  | number x =>
    cases token' with
    | number y => exact hpq.elim
    | _ => cases hq
  | _ => cases hp

/-! ### Texts -/

/-- **An expression has the value that the grammar gives it**, however it is written. If
it has none, the first error on the way is the answer, at the operator or function that
it belongs to. -/
theorem evaluate_expression (e : Phrase 1) (layout : Layout) (h : layout.tokens = e.tokens) :
    evaluate layout.text = (e.value 0).mapError (EvalError.mapPosition layout.place) ∧
      ∀ err, evaluate layout.text = .error err → err.IsArithmetic := by
  have heval : evaluate layout.text =
      (e.value 0).mapError (EvalError.mapPosition layout.place) := by
    rw [Layout.evaluate_text layout (Layout.separate_of_tokens h), h, e.engine_value]
  refine ⟨heval, fun err herr => ?_⟩
  rw [heval] at herr
  exact isArithmetic_of_mapPosition (fun _ => e.isArithmetic_of_value) herr

/-- `2 * (3 - log 0) / 0`, which fails twice. -/
def twoFaults : Phrase 1 :=
  .expression (.binary .div
    (.binary .mul (.term (.number 2))
      (.group (.binary .sub (.expression (.term (.number 3))) (.term (.call .log 0)))))
    (.number 0))

/-- One way to write it. -/
def twoFaultsLayout : Layout where
  pieces :=
    [⟨[' '], .number 2, ['2'], by decide, by decide +kernel⟩,
      ⟨[], .operator .mul, ['*'], by decide, by decide⟩,
      ⟨[], .leftParen, ['('], by decide, by decide⟩,
      ⟨['\t'], .number 3, ['3', '.', '0'], by decide, by decide +kernel⟩,
      ⟨[], .operator .sub, ['-'], by decide, by decide⟩,
      ⟨[], .function .log, ['l', 'o', 'g'], by decide, by decide⟩,
      ⟨[], .number 0, ['.', '0'], by decide, by decide +kernel⟩,
      ⟨[], .rightParen, [')'], by decide, by decide⟩,
      ⟨[' '], .operator .div, ['/'], by decide, by decide⟩,
      ⟨[' '], .number 0, ['0'], by decide, by decide +kernel⟩]
  gap := ['\n']
  all_isGap := by decide

theorem evaluate_twoFaults :
    twoFaultsLayout.tokens = twoFaults.tokens ∧
      evaluate twoFaultsLayout.text = .error (.located (.undefinedAt .log 0) 9) := by
  refine ⟨rfl, (evaluate_expression twoFaults twoFaultsLayout rfl).1.trans ?_⟩
  decide +kernel

end Calculator
