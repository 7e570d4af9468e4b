import Calculator.Keypad
import Calculator.Proofs.Finiteness
import Calculator.Proofs.Readback

/-! Results typed again.

A displayed number is read as that number, whatever follows it, provided that this does
not go on with its digits. A minus sign in front is read as an operator, though, so only
the absolute value comes back as a number (`lex_valueText`). The sign and the digits
tell all finite numbers apart (`eq_of_valueText`), and evaluating a displayed number gives
it back if its sign is clear, while any other sign is an operator that lacks its left
operand (`evaluate_valueText`). -/
namespace Calculator
open Display (valueText unsigned)

/-! ### Reading what is displayed -/

theorem lexFrom_unsigned {n : Nat} (hn : n < Binary64.infinity) {rest : List Char}
    (hrest : Token.Breaks rest) (start : Nat) :
    lexFrom (unsigned n ++ rest) start [] =
      (lexFrom rest (start + width (unsigned n)) []).after
        [⟨.number (Binary64.ofMagnitude n), start, start + width (unsigned n)⟩] :=
  Layout.lexFrom_piece ⟨[], .number (Binary64.ofMagnitude n), unsigned n, rfl,
    Display.spells_unsigned hn⟩ (fun _ => hrest) start

theorem lexFrom_minus (rest : List Char) (start : Nat) :
    lexFrom ('-' :: rest) start [] =
      (lexFrom rest (start + 1) []).after [⟨.operator .sub, start, start + 1⟩] :=
  Layout.lexFrom_piece ⟨[], .operator .sub, ['-'], rfl, by decide⟩ (fun h => by cases h) start

/-- What a displayed number is read as: its sign, if it has one, is an operator before the
number without the sign. -/
def Display.lexemes (v : Float) : List Lexeme :=
  let stop := width (valueText v).toList
  if Binary64.negative v then
    [⟨.operator .sub, 0, 1⟩, ⟨.number (-v), 1, stop⟩]
  else
    [⟨.number v, 0, stop⟩]

variable {v w : Float}

/-- A displayed number is read back before any text that does not go on with it. -/
theorem lexFrom_valueText (hv : v.isFinite = true) {rest : List Char} (hrest : Token.Breaks rest) :
    lexFrom ((valueText v).toList ++ rest) 0 [] =
      ((lexFrom rest 0 []).moveBy (width (valueText v).toList)).after (Display.lexemes v) := by
  have htext := Display.toList_valueText hv
  have hlt := (Binary64.isFinite_iff v).mp hv
  have hminus : width ['-'] = 1 := by decide
  cases hn : Binary64.negative v with
  | false =>
    rw [Display.sign, hn] at htext
    rw [Display.lexemes, hn, htext]
    show lexFrom (unsigned (Binary64.magnitude v) ++ rest) 0 [] = _
    rw [lexFrom_unsigned hlt hrest, lexFrom_add, Binary64.ofMagnitude_magnitude hv hn, Nat.zero_add]
    rfl
  | true =>
    rw [Display.sign, hn] at htext
    rw [Display.lexemes, hn, htext, width_append]
    show lexFrom ('-' :: (unsigned (Binary64.magnitude v) ++ rest)) 0 [] = _
    rw [lexFrom_minus, lexFrom_unsigned hlt hrest, Lexed.after_after, Nat.add_assoc, lexFrom_add,
      Binary64.ofMagnitude_eq_neg hv hn, Nat.zero_add]
    simp only [if_true, hminus, Nat.zero_add]
    rfl

theorem lex_valueText_append (hv : v.isFinite = true) {rest : String}
    (hrest : Token.Breaks rest.toList) :
    lex (valueText v ++ rest) =
      ((lex rest).moveBy (width (valueText v).toList)).after (Display.lexemes v) := by
  rw [lex, String.toList_append, lexFrom_valueText hv hrest, lex]

theorem lex_valueText (hv : v.isFinite = true) :
    lex (valueText v) = ⟨Display.lexemes v, .complete (width (valueText v).toList)⟩ := by
  have hend : Token.Breaks [] := fun _ hc => by cases hc
  have hlex := lexFrom_valueText hv hend
  rw [List.append_nil, lexFrom_nil] at hlex
  rw [lex, hlex]
  simp [Lexed.moveBy, Lexed.after]

/-- No two finite numbers are displayed alike, not even the two zeros. -/
theorem eq_of_valueText (hv : v.isFinite = true) (hw : w.isFinite = true)
    (h : valueText v = valueText w) : v = w := by
  have hlexemes : Display.lexemes v = Display.lexemes w := by
    have hlex := lex_valueText hv
    rw [h, lex_valueText hw] at hlex
    exact (congrArg Lexed.lexemes hlex).symm
  unfold Display.lexemes at hlexemes
  cases hnv : Binary64.negative v with
  | false =>
    cases hnw : Binary64.negative w with
    | false =>
      rw [hnv, hnw] at hlexemes
      cases hlexemes
      rfl
    | true =>
      rw [hnv, hnw] at hlexemes
      cases hlexemes
  | true =>
    cases hnw : Binary64.negative w with
    | false =>
      rw [hnv, hnw] at hlexemes
      cases hlexemes
    | true =>
      have hneg : -v = -w := by
        simp only [hnv, hnw, if_true, List.cons.injEq, Lexeme.mk.injEq, Token.number.injEq]
          at hlexemes
        exact hlexemes.2.1.1
      exact Binary64.eq_of_neg_eq hv hw hneg

/-! ### Evaluating what is displayed -/

/-- A displayed number has itself as its value, or none if it has a sign. -/
theorem evaluate_valueText (hv : v.isFinite = true) :
    evaluate (valueText v) = if Binary64.negative v then .error .incomplete else .ok v := by
  rw [evaluate, lex_valueText hv]
  unfold Display.lexemes
  cases Binary64.negative v <;> rfl

/-- A press of `=` that gives a value displays this value, and a value is finite. -/
theorem Keypad.press_equals_eq_ok {keypad next : Keypad}
    (h : keypad.press .equals = (next, .evaluated (.ok v))) :
    next = ⟨valueText v⟩ ∧ v.isFinite = true := by
  have hvalue : evaluate keypad.display = .ok v := by
    injection h with _ hreaction
    injection hreaction
  have hnext : (⟨Display.outcomeText (evaluate keypad.display)⟩ : Keypad) = next := by
    injection h
  rw [hvalue] at hnext
  exact ⟨hnext.symm, isFinite_of_evaluate hvalue⟩

/-- **Results read back exactly.** A displayed number followed by other text is read as
that number and then that text; if it has a sign, the sign is an operator and the number
is read without it. So numbers that are displayed alike are the same. And `=` after an
`=` that gave a value gives the same value again, or an error if the value has a sign. -/
theorem lex_redisplayed :
    (∀ (v : Float) (r : String), v.isFinite = true → Token.Breaks r.toList →
      lex (valueText v ++ r) =
        ((lex r).moveBy (width (valueText v).toList)).after (Display.lexemes v)) ∧
      (∀ v w : Float, v.isFinite = true → w.isFinite = true → valueText v = valueText w → v = w) ∧
      ∀ (keypad next : Keypad) (v : Float),
        keypad.press .equals = (next, .evaluated (.ok v)) →
          next.press .equals =
            if Binary64.negative v then
              (⟨Display.marker⟩, .evaluated (.error .incomplete))
            else
              (next, .evaluated (.ok v)) := by
  refine ⟨fun v r hv hr => lex_valueText_append hv hr,
    fun v w hv hw h => eq_of_valueText hv hw h, fun keypad next v h => ?_⟩
  obtain ⟨rfl, hv⟩ := Keypad.press_equals_eq_ok h
  rw [Keypad.press, evaluate_valueText hv]
  split <;> rfl

/-- A sum of seventeen digits, once with a sign before another text and once evaluated
again, and the two zeros. -/
theorem lex_redisplayed_sum :
    lex ("-0.30000000000000004" ++ "√2") =
        ((lex "√2").moveBy 20).after [⟨.operator .sub, 0, 1⟩, ⟨.number (0.1 + 0.2), 1, 20⟩] ∧
      valueText 0 ≠ valueText (-0) ∧
      Keypad.press ⟨"0.30000000000000004"⟩ .equals =
        (⟨"0.30000000000000004"⟩, .evaluated (.ok (0.1 + 0.2))) := by
  obtain ⟨hlex, hinjective, hpress⟩ := lex_redisplayed
  have htext : valueText (-(0.1 + 0.2)) = "-0.30000000000000004" := by decide +kernel
  have hlexemes : Display.lexemes (-(0.1 + 0.2)) =
      [⟨.operator .sub, 0, 1⟩, ⟨.number (0.1 + 0.2), 1, 20⟩] := by
    have hnegative : Binary64.negative (-(0.1 + 0.2)) = true := by decide +kernel
    have hneg : (- -(0.1 + 0.2) : Float) = 0.1 + 0.2 := by decide +kernel
    rw [Display.lexemes, hnegative, htext, hneg]
    rfl
  have hvalue : evaluate "0.1+0.2" = .ok (0.1 + 0.2) := by decide +kernel
  have hshown : valueText (0.1 + 0.2) = "0.30000000000000004" := by decide +kernel
  refine ⟨?_, fun h => ?_, ?_⟩
  · have hbreaks : Token.Breaks "√2".toList := fun c hc => by cases hc; decide
    have h := hlex (-(0.1 + 0.2)) "√2" (by decide +kernel) hbreaks
    rw [htext, hlexemes] at h
    exact h
  · have hzero : (0 : Float) ≠ -0 := by decide +kernel
    exact hzero (hinjective 0 (-0) (by decide +kernel) (by decide +kernel) h)
  · have hpositive : Binary64.negative (0.1 + 0.2) = false := by decide +kernel
    have h := hpress ⟨"0.1+0.2"⟩ ⟨"0.30000000000000004"⟩ (0.1 + 0.2)
      (by rw [Keypad.press, hvalue, Display.outcomeText, hshown])
    rw [hpositive] at h
    exact h

end Calculator
