import Calculator.Proofs.Opposites
import Calculator.Proofs.Presses
import Calculator.Proofs.Redisplay

/-! Going on from a result.

A result stays on the display, and an operator and a literal typed behind it make a text
of three tokens, or of four if the result has a sign. The first has the value one expects.
The second never has one: the sign is an operator as well and lacks its left operand, so
that the most one gets is the error of an operator that is reduced before
(`evaluate_continued`). -/
namespace Calculator
open Display (valueText unsigned)
open Decimal.Literal (isNumeral value?)

/-! ### Three or four tokens -/

namespace Engine

theorem value_binary (op : Operator) (a b : Float) :
    value [.number a, .operator op, .number b] = located 1 (op.apply a b) := by
  show finish ⟨[b, a], [.operator op 1], none⟩ (.complete 3) = _
  rw [finish_complete, settle_operator (loosest_le op)]
  show (located 1 (op.apply a b) >>= fun value => .ok [value]) >>= _ >>= _ = _
  cases op.apply a b <;> rfl

/-- A sign that is an operator is reduced at once if the next operator binds no tighter, and
last of all if it does. Either way there is one operand too few for it. -/
theorem value_signed (op : Operator) (a b : Float) :
    value [.operator .sub, .number a, .operator op, .number b] =
      if op.precedence = loosest then .error .incomplete
      else located 2 (op.apply a b) >>= fun _ => .error .incomplete := by
  show (step ⟨[a], [.operator .sub 0], none⟩ ⟨.operator op, 2, 3⟩ >>= fun engine =>
    engine.feed [⟨.number b, 3, 4⟩]) >>= (fun engine => engine.finish (.complete 4)) = _
  rw [step_operator]
  split
  · next hloose =>
    rw [hloose]
    rfl
  · next htight =>
    have hshielded : Shielded op.precedence [.operator .sub 0] :=
      Nat.lt_of_le_of_ne (loosest_le op) (Ne.symm htight)
    rw [settle_of_shielded hshielded]
    show finish ⟨[b, a], [.operator op 2, .operator .sub 0], none⟩ (.complete 4) = _
    rw [finish_complete, settle_operator (loosest_le op)]
    show (located 2 (op.apply a b) >>= fun value => .ok [value]) >>= _ >>= _ = _
    cases op.apply a b <;> rfl

end Engine

/-! ### What is displayed then -/

theorem spells_symbol (op : Operator) : (Token.operator op).Spells [op.symbol] := by
  cases op <;> decide

/-- The sign that stands before a result. -/
def minus : Piece := ⟨[], .operator .sub, ['-'], List.all_nil, spells_symbol .sub⟩

/-- A number without its sign, an operator behind it and a literal behind that. -/
def continuation {n : Nat} (hn : n < Binary64.infinity) (op : Operator) {run : List Char} {x : Float}
    (hrun : (Token.number x).Spells run) : List Piece :=
  [⟨[], .number (Binary64.ofMagnitude n), unsigned n, List.all_nil, Display.spells_unsigned hn⟩,
    ⟨[], .operator op, [op.symbol], List.all_nil, spells_symbol op⟩,
    ⟨[], .number x, run, List.all_nil, hrun⟩]

section Continued
variable {v x : Float} {run : List Char}

theorem mapError_located {α : Type} (place : Nat → Nat) (i : Nat) (r : Except Fault α) :
    (Engine.located i r).mapError (EvalError.mapPosition place) = Engine.located (place i) r := by
  cases r <;> rfl

theorem evaluate_continuation {n : Nat} (hn : n < Binary64.infinity) (op : Operator)
    (hrun : (Token.number x).Spells run) :
    evaluate (String.ofList (unsigned n ++ op.symbol :: run)) =
      Engine.located (unsigned n).length (op.apply (Binary64.ofMagnitude n) x) := by
  let layout : Layout := ⟨continuation hn op hrun, [], rfl⟩
  have htext : layout.text = String.ofList (unsigned n ++ op.symbol :: run) := by
    simp [layout, Layout.text, Layout.spell, continuation, Piece.text]
  have hseparate : Layout.Separate layout.pieces := by
    simp [layout, Layout.Separate, continuation, Token.IsNumber]
  have hplace : layout.place 1 = (unsigned n).length := by
    simp [layout, Layout.place, Layout.before, continuation, Piece.text]
  rw [← htext, Layout.evaluate_text layout hseparate, ← hplace, ← mapError_located]
  exact congrArg _ (Engine.value_binary op _ x)

theorem evaluate_minus_continuation {n : Nat} (hn : n < Binary64.infinity) (op : Operator)
    (hrun : (Token.number x).Spells run) :
    evaluate (String.ofList ('-' :: (unsigned n ++ op.symbol :: run))) =
      if op.precedence = Engine.loosest then .error .incomplete
      else Engine.located (1 + (unsigned n).length) (op.apply (Binary64.ofMagnitude n) x) >>=
        fun _ => .error .incomplete := by
  let layout : Layout := ⟨minus :: continuation hn op hrun, [], rfl⟩
  have htext : layout.text = String.ofList ('-' :: (unsigned n ++ op.symbol :: run)) := by
    simp [layout, Layout.text, Layout.spell, minus, continuation, Piece.text]
  have hseparate : Layout.Separate layout.pieces := by
    simp [layout, Layout.Separate, minus, continuation, Token.IsNumber]
  have hplace : layout.place 2 = 1 + (unsigned n).length := by
    simp [layout, Layout.place, Layout.before, minus, continuation, Piece.text, Nat.add_comm]
  have hvalue := Engine.value_signed op (Binary64.ofMagnitude n) x
  rw [← htext, Layout.evaluate_text layout hseparate, ← hplace]
  refine (congrArg _ hvalue).trans ?_
  split
  · rfl
  · cases op.apply (Binary64.ofMagnitude n) x <;> rfl

/-- **What a result with more typed behind it comes to.** -/
theorem evaluate_continued (hv : v.isFinite = true) (op : Operator)
    (hrun : (Token.number x).Spells run) :
    evaluate (valueText v ++ String.ofList (op.symbol :: run)) =
      if Binary64.negative v then
        if op.precedence = Engine.loosest then .error .incomplete
        else Engine.located (valueText v).length (op.apply v x) >>= fun _ => .error .incomplete
      else
        Engine.located (valueText v).length (op.apply v x) := by
  have hn := (Binary64.isFinite_iff v).mp hv
  have hshown := Display.toList_valueText hv
  have htext : valueText v ++ String.ofList (op.symbol :: run) =
      String.ofList (Display.sign v ++ (unsigned (Binary64.magnitude v) ++ op.symbol :: run)) := by
    rw [← String.toList_inj, String.toList_append, hshown, String.toList_ofList,
      String.toList_ofList, List.append_assoc]
  rw [htext, ← String.length_toList, hshown, List.length_append, Display.sign]
  cases hnegative : Binary64.negative v with
  | false =>
    have hcontinuation := evaluate_continuation hn op hrun
    rw [Binary64.ofMagnitude_magnitude hv hnegative] at hcontinuation
    simpa using hcontinuation
  | true =>
    -- What follows the sign is the opposite number, at which `op` fails just as it does at `v`.
    have hcontinuation := evaluate_minus_continuation hn op hrun
    rw [Binary64.ofMagnitude_eq_neg hv hnegative] at hcontinuation
    simp only [reduceIte, List.singleton_append, List.length_singleton]
    rw [hcontinuation]
    split
    · rfl
    · next htight => exact Operator.apply_neg_bind htight hv x _ _

end Continued

/-! ### At the keypad -/

/-- Digits and the point. -/
def Key.IsNumeral : Key → Prop
  | .digit _ | .point => True
  | _ => False

theorem Key.IsNumeral.writes {key : Key} (h : key.IsNumeral) : key.Writes := by
  cases key with
  | digit | point => trivial
  | _ => cases h

theorem Key.isNumeral_of_mem_written {keys : List Key} (h : ∀ key ∈ keys, key.IsNumeral) :
    (Key.written keys).all isNumeral = true := by
  refine List.all_eq_true.mpr fun c hc => ?_
  obtain ⟨key, hkey, hc⟩ := List.mem_flatMap.mp hc
  have hnumeral := h key hkey
  cases key with
  | digit value =>
    have hdigits : ∀ value : Fin 10, (Key.digit value).label.toList.all isNumeral = true := by
      decide +kernel
    exact List.all_eq_true.mp (hdigits value) c hc
  | point =>
    cases List.mem_singleton.mp hc
    rfl
  | _ => cases hnumeral

theorem Key.written_operator_cons (op : Operator) (keys : List Key) :
    Key.written (.operator op :: keys) = op.symbol :: Key.written keys := by
  simp [Key.written, Key.label]

/-- **What comes of going on from a result.** After an `=` that gave the value `v`, an
operator, a literal and `=` give what the operator makes of `v` and the literal, value or
error, if the sign of `v` is clear. If it is set they never give a value: what is missing
is an operand of the sign, unless the operator binds tighter than the sign and fails by
itself. -/
theorem Keypad.press_chained {keypad next : Keypad} {v : Float}
    (h : keypad.press .equals = (next, .evaluated (.ok v))) (op : Operator) {keys : List Key}
    (hkeys : ∀ key ∈ keys, key.IsNumeral) {x : Float} (hx : value? (Key.written keys) = some x) :
    ((next.pressAll (.operator op :: keys)).press .equals).2 =
      .evaluated (if Binary64.negative v then
        if op.precedence = Engine.loosest then .error .incomplete
        else Engine.located (valueText v).length (op.apply v x) >>= fun _ => .error .incomplete
      else
        Engine.located (valueText v).length (op.apply v x)) := by
  obtain ⟨rfl, hv⟩ := press_equals_eq_ok h
  have hwrites : ∀ key ∈ Key.operator op :: keys, key.Writes := by
    intro key hkey
    rcases List.mem_cons.mp hkey with rfl | hkey
    · trivial
    · exact (hkeys key hkey).writes
  rw [pressAll_of_writes _ hwrites, Key.written_operator_cons,
    ← evaluate_continued hv op ⟨Key.isNumeral_of_mem_written hkeys, hx⟩]
  rfl

theorem Keypad.press_oneMinusThree :
    Keypad.press ⟨"1-3"⟩ .equals = (⟨"-2.0"⟩, .evaluated (.ok (-2))) := by
  have hvalue : evaluate "1-3" = .ok (-2) := by decide +kernel
  have hshown : valueText (-2) = "-2.0" := by decide +kernel
  rw [press, hvalue, Display.outcomeText, hshown]

/-- Going on from a positive result, and dividing a negative one by zero. -/
theorem Keypad.press_chained_sixAndZero :
    ((Keypad.pressAll ⟨"3.0"⟩ [.operator .mul, .digit 2]).press .equals).2 =
        .evaluated (.ok 6) ∧
      ((Keypad.pressAll ⟨"-2.0"⟩ [.operator .div, .point, .digit 0]).press .equals).2 =
        .evaluated (.error (.located .divisionByZero 4)) := by
  have hthree : Keypad.press ⟨"1+2"⟩ .equals = (⟨"3.0"⟩, .evaluated (.ok 3)) := by
    have hvalue : evaluate "1+2" = .ok 3 := by decide +kernel
    have hshown : valueText 3 = "3.0" := by decide +kernel
    rw [press, hvalue, Display.outcomeText, hshown]
  constructor
  · have hkeys : ∀ key ∈ [Key.digit 2], key.IsNumeral := by simp [Key.IsNumeral]
    have h := press_chained hthree .mul hkeys (x := 2) (by decide +kernel)
    have hsign : Binary64.negative 3 = false := by decide +kernel
    have happly : Operator.mul.apply 3 2 = .ok 6 := by decide +kernel
    rw [hsign, happly] at h
    exact h
  · have hkeys : ∀ key ∈ [Key.point, Key.digit 0], key.IsNumeral := by simp [Key.IsNumeral]
    have h := press_chained press_oneMinusThree .div hkeys (x := 0) (by decide +kernel)
    have hsign : Binary64.negative (-2) = true := by decide +kernel
    have happly : Operator.div.apply (-2) 0 = .error .divisionByZero := by decide +kernel
    have hshown : valueText (-2) = "-2.0" := by decide +kernel
    rw [hsign, happly, hshown] at h
    exact h

/-- Five added to minus two: the sum is three, and the keypad finds an operand missing. -/
theorem Keypad.press_after_minusTwo :
    (Keypad.blank.pressAll [.digit 1, .operator .sub, .digit 3]).press .equals =
        (⟨"-2.0"⟩, .evaluated (.ok (-2))) ∧
      value? (Key.written [.digit 5]) = some 5 ∧ Operator.add.apply (-2) 5 = .ok 3 ∧
      ((Keypad.pressAll ⟨"-2.0"⟩ [.operator .add, .digit 5]).press .equals).2 =
        .evaluated (.error .incomplete) := by
  have hdisplay : Keypad.blank.pressAll [.digit 1, .operator .sub, .digit 3] = ⟨"1-3"⟩ := by
    decide +kernel
  have hnext : Keypad.pressAll ⟨"-2.0"⟩ [.operator .add, .digit 5] = ⟨"-2.0+5"⟩ := by decide +kernel
  have herror : evaluate "-2.0+5" = .error .incomplete := by decide +kernel
  refine ⟨?_, by decide +kernel, by decide +kernel, ?_⟩
  · rw [hdisplay, press_oneMinusThree]
  · rw [hnext, press, herror]

end Calculator
