import Calculator.Proofs.Groups
import Calculator.Proofs.Parentheses

/-! What no more text can mend.

A run meets its first error at some lexeme, or where no token starts, or only at the end of
the text. What it meets before the end it meets whatever follows, provided that what follows
is set apart by a gap, so that no token changes. Some faults can only be met before the end
(`Fault.IsFinal`); they stay the answer for every longer text (`evaluate_append_gap`). -/
namespace Calculator

/-! ### Errors before the end -/

/-- No token goes on with a gap. -/
theorem delimits_of_isGap {c : Char} (h : isGap c = true) : Delimits c := by
  refine ⟨Token.isNumeral_of_isGap h, fun entry hentry hmem => ?_⟩
  have hall : ∀ entry ∈ Token.lexicon, entry.1.tail.any isGap = false := by decide
  exact List.any_eq_false.mp (hall entry hentry) c hmem h

namespace Engine
variable {lexed : Lexed} {e : EvalError}

/-- A run fails at one of the lexemes, or where the text cannot be cut. -/
inductive Fails (lexed : Lexed) (e : EvalError) : Prop where
  | lexeme (hfeed : start.feed lexed.lexemes = .error e)
  | text {cause : LexicalFault} {i : Nat} (hending : lexed.ending = .fault cause i)
    (h : evaluate lexed = .error e)

/-- **A run that has failed is done**, and does not look at what comes next. -/
theorem Fails.evaluate_resume (h : Fails lexed e) (next : Nat → Lexed) :
    evaluate (lexed.resume next) = .error e := by
  obtain ⟨lexemes, ending⟩ := lexed
  cases h with
  | lexeme hfeed =>
    cases ending with
    | complete stop =>
      show (start.feed (lexemes ++ (next stop).lexemes) >>= _) = _
      rw [feed_append, hfeed]
      rfl
    | fault cause i =>
      show (start.feed lexemes >>= _) = _
      rw [hfeed]
      rfl
  | text hending h =>
    cases hending
    exact h

/-- Otherwise all has been taken in, and it is the end that fails. -/
theorem fails_or_finish (h : evaluate lexed = .error e) :
    Fails lexed e ∨ ∃ engine stop, start.feed lexed.lexemes = .ok engine ∧
      lexed.ending = .complete stop ∧ engine.finish (.complete stop) = .error e := by
  rcases bind_eq_error h with hfeed | ⟨engine, hfeed, hfinish⟩
  · exact .inl (.lexeme hfeed)
  · cases hending : lexed.ending with
    | fault cause i => exact .inl (.text hending h)
    | complete stop =>
      rw [hending] at hfinish
      exact .inr ⟨engine, stop, hfeed, rfl, hfinish⟩

end Engine

/-! ### Faults that are met before the end -/

/-- A fault that is not met at the end of a text: the text itself, an argument outside the
domain, something else where a function has its number, or a right parenthesis. -/
def Fault.IsFinal (source : String) (p : Nat) : Fault → Prop
  | .lexical _ | .undefinedAt _ _ => True
  | .missingNumber => p < source.length
  | .unbalancedParenthesis => source.toList[p]? = some ')'
  | .divisionByZero | .notFinite => False

section Source
variable {source : String} {fault : Fault} {p : Nat}

/-- At the end no final fault is met. -/
theorem fails_of_isFinal (h : evaluate source = .error (.located fault p))
    (hfinal : fault.IsFinal source p) :
    ∃ byte ≤ width source.toList, p = charOffset source.toList byte ∧
      Engine.Fails (lex source) (.located fault byte) := by
  obtain ⟨byte, hbyte, rfl⟩ := mapPosition_eq_located_iff.mp h
  refine ⟨byte, Engine.le_width_of_evaluate hbyte, rfl,
    (Engine.fails_or_finish hbyte).resolve_right ?_⟩
  rintro ⟨engine, stop, hfeed, hending, hfinish⟩
  rcases Engine.finish_error_cases hfinish with he | ⟨level, hsettle⟩ |
    ⟨operands, i, pending, -, he⟩ | he
  · -- A function lacks its number at the end, behind the last character.
    cases he
    have hstop := stop_of_complete hending
    rw [Nat.zero_add] at hstop
    have hplace := charOffset_width source.toList []
    rw [List.append_nil, ← hstop] at hplace
    rw [Fault.IsFinal, hplace, String.length_toList] at hfinal
    exact Nat.lt_irrefl _ hfinal
  · rcases Engine.fault_of_settle hsettle with rfl | rfl <;> exact hfinal
  · -- Then all right parentheses have been dealt with.
    cases he
    obtain ⟨before, _, hplace, ⟨htext, hbefore⟩ | ⟨htext, -⟩⟩ := cases_of_unbalanced h
    · have hopen : Token.openAfter 0 (parentheses source.toList) =
          some (Engine.opened engine.pending) := by
        rw [(reads_lexFrom source.toList 0).parentheses_eq ⟨stop, hending⟩, Token.openAfter_filter]
        exact Engine.openAfter_of_feed hfeed
      exact not_exceeds hopen htext hbefore.exceeds
    · rw [Fault.IsFinal, hplace, htext, List.getElem?_append_right (Nat.le_refl _), Nat.sub_self]
        at hfinal
      cases hfinal
  · cases he

/-- **What is met before the end stays the answer.** Whatever is written behind a gap after a
text with a final fault, the answer is the same, in the same place. -/
theorem evaluate_append_gap (h : evaluate source = .error (.located fault p))
    (hfinal : fault.IsFinal source p) {c : Char} (hc : isGap c = true) (more : String) :
    evaluate (source ++ String.singleton c ++ more) = .error (.located fault p) := by
  obtain ⟨byte, hplace, rfl, hfails⟩ := fails_of_isFinal h hfinal
  have htext : (source ++ String.singleton c ++ more).toList =
      source.toList ++ c :: more.toList := by
    simp
  have hlonger : Engine.evaluate (lex (source ++ String.singleton c ++ more)) =
      .error (.located fault byte) := by
    rw [lex, htext, lexFrom_append (delimits_of_isGap hc)]
    exact hfails.evaluate_resume _
  rw [evaluate, hlonger, htext]
  show Except.error (EvalError.located fault (charOffset _ byte)) = _
  rw [charOffset_append_left hplace]

end Source

/-- The glyph has no number before the parenthesis, so a later one comes too late, and nothing
makes up for the logarithm of zero or for the parenthesis that is one too many. -/
theorem evaluate_append_gap_glyph :
    evaluate "2*√)" = .error (.located .missingNumber 3) ∧
      Fault.missingNumber.IsFinal "2*√)" 3 ∧
      evaluate ("2*√)" ++ String.singleton '\t' ++ "4)") = .error (.located .missingNumber 3) ∧
      evaluate "√4-log.0" = .error (.located (.undefinedAt .log 0) 3) ∧
      evaluate ("√4-log.0" ++ String.singleton ' ' ++ "1π") =
        .error (.located (.undefinedAt .log 0) 3) ∧
      evaluate "(√4))/0" = .error (.located .unbalancedParenthesis 4) ∧
      Fault.unbalancedParenthesis.IsFinal "(√4))/0" 4 ∧
      evaluate ("(√4))/0" ++ String.singleton '\n' ++ "(..") =
        .error (.located .unbalancedParenthesis 4) := by
  have hnumber : evaluate "2*√)" = .error (.located .missingNumber 3) := by decide +kernel
  have hnumber' : Fault.missingNumber.IsFinal "2*√)" 3 := by
    show 3 < "2*√)".length
    decide
  have hlog : evaluate "√4-log.0" = .error (.located (.undefinedAt .log 0) 3) := by decide +kernel
  have hright : evaluate "(√4))/0" = .error (.located .unbalancedParenthesis 4) := by
    decide +kernel
  have hright' : Fault.unbalancedParenthesis.IsFinal "(√4))/0" 4 := rfl
  exact ⟨hnumber, hnumber', evaluate_append_gap hnumber hnumber' (by decide) "4)", hlog,
    evaluate_append_gap hlog trivial (by decide) "1π", hright, hright',
    evaluate_append_gap hright hright' (by decide) "(.."⟩

end Calculator
