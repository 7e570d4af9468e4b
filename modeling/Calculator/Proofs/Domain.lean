import Calculator.Proofs.Finiteness
import Calculator.Proofs.Literals
import Calculator.Proofs.Positions

/-! Where functions are undefined.

A function is applied to the literal behind it and to nothing else, and a literal has no minus
sign. Of all literals there is therefore one at which a function is undefined: zero, and the
function is the logarithm (`undefinedAt_iff`). Together with the finite operands of the engine,
also in the middle of a step (`Engine.finite_of_settle_source`), this says which values there
are and which of them cannot be computed (`evaluate_defined`). -/
namespace Calculator
open Binary64 (negative bits magnitude)
open Decimal.Literal (isNumeral value? worth)

/-! ### Comparing with zero -/

section Zero
open Float.Model Float.Model.UnpackedFloat
variable {x : Float}

theorem lt_zero_iff (x : Float) :
    x < 0 ↔ UnpackedFloat.lt (unpack .binary64 (bits x)) (.zero .positive) = true :=
  decide_eq_true_iff

theorem le_zero_iff (x : Float) :
    x ≤ 0 ↔ UnpackedFloat.le (unpack .binary64 (bits x)) (.zero .positive) = true :=
  decide_eq_true_iff

theorem sign_of_not_negative (hn : negative x = false) :
    Sign.ofBitVec (unpackSign (bits x)) = .positive := by
  have hclear : ∀ s : BitVec 1, s ≠ 1#1 → s = 0#1 := by decide
  rw [Binary64.negative_eq, beq_eq_false_iff_ne] at hn
  rw [hclear _ hn]
  rfl

theorem eq_zero_of_magnitude (hn : negative x = false) (hm : magnitude x = 0) : x = 0 :=
  Binary64.eq_of_magnitude_eq (hn.trans rfl) (hm.trans rfl)

/-- A number without a minus sign is not less than zero. -/
theorem not_lt_zero (hx : x.isFinite = true) (hn : negative x = false) : ¬ x < 0 := by
  rw [lt_zero_iff]
  rcases Binary64.unpack_bits hx with ⟨hunpack, -⟩ | ⟨m, e, hm, hunpack, -⟩ <;>
    rw [hunpack, sign_of_not_negative hn] <;> exact Bool.false_ne_true

/-- Nor is it zero or less, unless it is zero. -/
theorem le_zero_iff_eq (hx : x.isFinite = true) (hn : negative x = false) : x ≤ 0 ↔ x = 0 := by
  rw [le_zero_iff]
  rcases Binary64.unpack_bits hx with ⟨hunpack, hzero⟩ | ⟨m, e, hm, hunpack, -⟩
  · rw [hunpack]
    exact iff_of_true rfl (eq_zero_of_magnitude hn hzero)
  · rw [hunpack, sign_of_not_negative hn]
    refine iff_of_false Bool.false_ne_true ?_
    rintro rfl
    cases hunpack

end Zero

/-! ### Undefined functions -/

/-- **Of the functions and numbers without a minus sign, the logarithm is undefined at zero and
all else is defined.** -/
theorem UnaryFunction.undefinedAt_iff {f g : UnaryFunction} {x y : Float} (hx : x.isFinite = true)
    (hn : negative x = false) :
    f.apply x = .error (.undefinedAt g y) ↔ f = .log ∧ x = 0 ∧ g = .log ∧ y = 0 := by
  have hfinite : ∀ z : Float, finite z ≠ .error (.undefinedAt g y) := fun z h => by
    cases eq_notFinite_of_finite h
  cases f with
  | sin => exact iff_of_false (hfinite _) fun h => by cases h.1
  | cos => exact iff_of_false (hfinite _) fun h => by cases h.1
  | tan => exact iff_of_false (hfinite _) fun h => by cases h.1
  | log =>
    by_cases hzero : x = 0
    · have happly : UnaryFunction.log.apply x = .error (.undefinedAt .log x) := by
        unfold UnaryFunction.apply
        exact if_pos ((le_zero_iff_eq hx hn).mpr hzero)
      rw [happly, hzero]
      constructor
      · intro h
        cases h
        exact ⟨rfl, rfl, rfl, rfl⟩
      · rintro ⟨-, -, rfl, rfl⟩
        rfl
    · refine iff_of_false (fun h => ?_) fun h => hzero h.2.1
      have happly : UnaryFunction.log.apply x = finite x.log10 :=
        if_neg fun hle => hzero ((le_zero_iff_eq hx hn).mp hle)
      rw [happly] at h
      exact hfinite _ h
  | sqrt =>
    have happly : UnaryFunction.sqrt.apply x = finite x.sqrt := if_neg (not_lt_zero hx hn)
    rw [happly]
    exact iff_of_false (hfinite _) fun h => by cases h.1

/-! ### The engine -/

namespace Engine
variable {engine : Engine}

/-- The operands of a text are finite from its start on. -/
theorem finite_of_source {source : String} {front : List Lexeme}
    (hfront : front <+: (lex source).lexemes) (h : start.feed front = .ok engine) :
    Finite engine.operands := by
  refine finite_of_feed (fun l hl x hx => ?_) (fun _ hx => by cases hx) h
  exact (literal_of_mem_lex (hfront.subset hl) hx).1

end Engine

/-! ### Tokens side by side -/

/-- Two lexemes in a row stand in the text as their words with a gap between them. -/
theorem Reads.exists_adjacent {start : Nat} {text : List Char} {lexed : Lexed}
    (h : Reads start text lexed) {front rest : List Lexeme} {l next : Lexeme}
    (hlexemes : lexed.lexemes = front ++ l :: next :: rest) :
    ∃ before word gap run after, text = before ++ word ++ gap ++ run ++ after ∧
      l.start = start + width before ∧ l.token.Spells word ∧ gap.all isGap = true ∧
      next.start = start + width (before ++ word ++ gap) ∧ next.token.Spells run ∧
      (next.token.IsNumber → Token.Breaks after) := by
  induction h generalizing front with
  | complete | malformed | invalid => simp at hlexemes
  | @token start piece after lexed hrest hreads ih =>
    cases front with
    | nil =>
      obtain ⟨rfl, htail⟩ := List.cons.inj hlexemes
      cases hreads with
      | complete | malformed | invalid => cases htail
      | @token _ second rest' lexed' hrest' hreads' =>
        obtain ⟨rfl, -⟩ := List.cons.inj htail
        refine ⟨piece.gap, piece.word, second.gap, second.word, rest', by simp [Piece.text], rfl,
          piece.spells, second.all_isGap, ?_, second.spells, hrest'⟩
        rw [width_append, ← Nat.add_assoc]
        rfl
    | cons first front =>
      obtain ⟨rfl, htail⟩ := List.cons.inj hlexemes
      obtain ⟨before, word, gap, run, rest', rfl, hstart, hword, hgap, hnext, hrun⟩ := ih htail
      refine ⟨piece.text ++ before, word, gap, run, rest', by simp, ?_, hword, hgap, ?_, hrun⟩
      · rw [hstart, width_append, Nat.add_assoc]
      · rw [hnext, List.append_assoc piece.text, List.append_assoc piece.text,
          width_append piece.text, Nat.add_assoc]

/-- The logarithm has one spelling. -/
theorem Token.eq_of_spells_log {word : List Char} (h : (Token.function .log).Spells word) :
    word = ['l', 'o', 'g'] := by
  have hall : ∀ entry ∈ lexicon, entry.2 = .function .log → entry.1 = ['l', 'o', 'g'] := by decide
  exact hall _ (mem_lexicon_of_spells h id) rfl

/-! ### Errors -/

/-- The text has a logarithm behind these characters and the number zero behind the logarithm,
spelled by a literal that rounds to zero. -/
structure LogOfZero (source : String) (before gap run after : List Char) : Prop where
  text : source.toList = before ++ ['l', 'o', 'g'] ++ gap ++ run ++ after
  all_isGap : gap.all isGap = true
  all_isNumeral : run.all isNumeral = true
  breaks : Token.Breaks after
  value : value? run = some 0
  roundsTo : Binary64.RoundsTo (worth run) 0
  tokens : ∃ front l next rest, (lex source).lexemes = front ++ l :: next :: rest ∧
    l.token = .function .log ∧ l.start = width before ∧ next.token = .number 0 ∧
    next.start = width (before ++ ['l', 'o', 'g'] ++ gap)

section Source
variable {source : String} {front rest : List Lexeme} {l next : Lexeme}

/-- A function is undefined at the number behind it only if they are the logarithm and zero. -/
theorem logOfZero_of_undefinedAt {f g : UnaryFunction} {x y : Float}
    (hlexemes : (lex source).lexemes = front ++ l :: next :: rest)
    (htoken : l.token = .function f) (hnext : next.token = .number x)
    (h : f.apply x = .error (.undefinedAt g y)) :
    g = .log ∧ y = 0 ∧ ∃ before gap run after, LogOfZero source before gap run after ∧
      charOffset source.toList l.start = before.length := by
  have hmem : next ∈ (lex source).lexemes := by simp [hlexemes]
  obtain ⟨hx, hn⟩ := literal_of_mem_lex hmem hnext
  obtain ⟨rfl, rfl, rfl, rfl⟩ := (UnaryFunction.undefinedAt_iff hx hn).mp h
  obtain ⟨before, word, gap, run, after, htext, hstart, hword, hgap, hplace, hrun, hafter⟩ :=
    (reads_lexFrom source.toList 0).exists_adjacent hlexemes
  rw [Nat.zero_add] at hstart hplace
  rw [htoken] at hword
  rw [hnext] at hrun hafter
  obtain rfl := Token.eq_of_spells_log hword
  refine ⟨rfl, rfl, before, gap, run, after, ⟨htext, hgap, hrun.1, hafter trivial, hrun.2,
    (Decimal.Literal.value?_eq_some hrun.1 hrun.2).2, front, l, next, rest, hlexemes, htoken,
    hstart, hnext, hplace⟩, ?_⟩
  rw [hstart, htext, List.append_assoc, List.append_assoc, List.append_assoc, charOffset_width]

/-- An error of a function is one of the number behind it. -/
theorem logOfZero_of_evaluate {f : UnaryFunction} {x : Float} {p : Nat}
    (h : evaluate source = .error (.located (.undefinedAt f x) p)) :
    f = .log ∧ x = 0 ∧ ∃ before gap run after, LogOfZero source before gap run after ∧
      p = before.length := by
  obtain ⟨byte, hbyte, rfl⟩ := mapPosition_eq_located_iff.mp h
  cases Engine.blames_of_evaluate hbyte with
  | operator _ _ hfault =>
    rcases Operator.fault_cases hfault with hfault | ⟨hfault, -⟩ <;> cases hfault
  | function hlexemes htoken hnext hfault =>
    exact logOfZero_of_undefinedAt hlexemes htoken hnext hfault

/-- The engine fails at the logarithm of zero when it comes to it. -/
theorem evaluate_log_zero {engine : Engine}
    (hlexemes : (lex source).lexemes = front ++ l :: next :: rest)
    (htoken : l.token = .function .log) (hnext : next.token = .number 0)
    (h : Engine.start.feed (front ++ [l]) = .ok engine) :
    evaluate source =
      .error (.located (.undefinedAt .log 0) (charOffset source.toList l.start)) := by
  have hwaiting : engine.waiting = some (.log, l.start) := by
    rw [Engine.feed_append] at h
    obtain ⟨before, -, hstep⟩ := bind_eq_ok h
    rw [Engine.feed_singleton] at hstep
    exact Engine.waiting_of_function htoken hstep
  have hzero : UnaryFunction.log.apply 0 = .error (.undefinedAt .log 0) :=
    (UnaryFunction.undefinedAt_iff (by decide) (by decide)).mpr ⟨rfl, rfl, rfl, rfl⟩
  obtain ⟨operands, pending, waiting⟩ := engine
  obtain ⟨token, start, stop⟩ := next
  cases hwaiting
  cases hnext
  rw [evaluate, Engine.evaluate, hlexemes, List.append_cons, Engine.feed_append, h, ok_bind,
    Engine.feed_cons, Engine.step_argument, hzero]
  rfl

end Source

/-- Whatever the engine settles, at a lexeme or at the end of the text, it gets on by reductions,
as far as to one that fails if it fails. All operands on the way are finite. -/
theorem Engine.finite_of_settle_source {source : String} {front : List Lexeme} {engine : Engine}
    (hfront : front <+: (lex source).lexemes) (h : start.feed front = .ok engine) (level : Nat) :
    (∃ operands pending, settle level engine.operands engine.pending = .ok (operands, pending) ∧
      engine.Reduces ⟨operands, pending, engine.waiting⟩ ∧ Finite operands) ∨
    ∃ e op i operands rest, settle level engine.operands engine.pending = .error e ∧
      engine.Reduces ⟨operands, .operator op i :: rest, engine.waiting⟩ ∧ Finite operands ∧
      reduce op i operands = .error e := by
  have hfinite := finite_of_source hfront h
  cases hsettle : settle level engine.operands engine.pending with
  | ok settled =>
    have hreduces := reduces_of_settle engine.waiting hsettle
    exact .inl ⟨_, _, rfl, hreduces, finite_of_reduces hfinite hreduces⟩
  | error e =>
    obtain ⟨op, i, operands, rest, hreduces, hfails⟩ :=
      exists_reduces_of_settle_error engine.waiting hsettle
    exact .inr ⟨e, op, i, operands, rest, rfl, hreduces, finite_of_reduces hfinite hreduces, hfails⟩

/-- **Only finite numbers circulate, and only the logarithm of zero is undefined.** The states
that reductions reach are those inside a step and at the end of the text
(`Engine.finite_of_settle_source`). -/
theorem evaluate_defined (source : String) :
    (∀ front engine engine', front <+: (lex source).lexemes →
      Engine.start.feed front = .ok engine → engine.Reduces engine' →
        ∀ x ∈ engine'.operands, x.isFinite = true) ∧
    (∀ l ∈ (lex source).lexemes, ∀ x, l.token = .number x →
      x.isFinite = true ∧ negative x = false) ∧
    (∀ v, evaluate source = .ok v → v.isFinite = true) ∧
    (∀ f x p, evaluate source = .error (.located (.undefinedAt f x) p) →
      f = .log ∧ x.toBits = 0 ∧ ∃ before gap run after, LogOfZero source before gap run after ∧
        p = before.length) ∧
    ∀ front l next rest engine, (lex source).lexemes = front ++ l :: next :: rest →
      l.token = .function .log → next.token = .number 0 →
        Engine.start.feed (front ++ [l]) = .ok engine →
          evaluate source =
            .error (.located (.undefinedAt .log 0) (charOffset source.toList l.start)) := by
  refine ⟨fun front engine engine' hfront hfeed hreduces =>
      Engine.finite_of_reduces (Engine.finite_of_source hfront hfeed) hreduces,
    fun l hl x hx => literal_of_mem_lex hl hx, fun v h => isFinite_of_evaluate h,
    fun f x p h => ?_, fun front l next rest engine => evaluate_log_zero⟩
  obtain ⟨rfl, rfl, hlog⟩ := logOfZero_of_evaluate h
  exact ⟨rfl, rfl, hlog⟩

/-- Here the literal is not zero, but so small that it rounds to it. -/
def tinyLogarithm : List Char :=
  ['√', '4', '-', 'l', 'o', 'g', ' ', '.'] ++ (List.replicate 330 '0' ++ ['1'])

theorem evaluate_defined_tiny :
    evaluate (String.ofList tinyLogarithm) = .error (.located (.undefinedAt .log 0) 3) ∧
      (0 : Float).toBits = 0 ∧
      (∃ before gap run after, LogOfZero (String.ofList tinyLogarithm) before gap run after ∧
        3 = before.length) ∧
      evaluate "√4-.5" = .ok 1.5 ∧ (1.5 : Float).isFinite = true := by
  have htiny : evaluate (String.ofList tinyLogarithm) =
      .error (.located (.undefinedAt .log 0) 3) := by
    rw [evaluate, lex, String.toList_ofList]
    decide +kernel
  have hvalue : evaluate "√4-.5" = .ok 1.5 := by decide +kernel
  obtain ⟨-, -, -, herror, -⟩ := evaluate_defined (String.ofList tinyLogarithm)
  obtain ⟨-, -, hfinite, -⟩ := evaluate_defined "√4-.5"
  obtain ⟨-, hbits, hlog⟩ := herror .log 0 3 htiny
  exact ⟨htiny, hbits, hlog, hvalue, hfinite 1.5 hvalue⟩

end Calculator
