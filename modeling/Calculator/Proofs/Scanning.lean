import Calculator.Proofs.Positions
import Calculator.Proofs.Stopping

/-! Reading and evaluating at once.

A text need not be cut before it is evaluated. `Engine.scan` takes a token off the text only
when all before it has been dealt with, and the number of a function right behind the
function; it looks no further than to the first error. It comes to the same (`scan_eq`).
Hence an error of the text itself hides no error of the tokens before it and is hidden by
none but these, which are placed before it; and where there is no such error, none is
reported (`evaluate_lexical`). -/
namespace Calculator

/-! ### One token -/

/-- What a text starts with from byte `start` on: a token with the text behind it, or else its
end. -/
def pull (start : Nat) : List Char → Except Ending (Lexeme × List Char)
  | [] => .error (.complete start)
  | c :: text =>
    if isGap c then
      pull (start + c.utf8Size) text
    else
      match Token.cut c text with
      | .ok t => .ok (⟨t.token, start, start + width t.spelling⟩, t.rest)
      | .error fault => .error (.fault fault start)

section Pull
variable {start : Nat} {text rest : List Char} {l : Lexeme} {ending : Ending}

theorem pull_gap {c : Char} (h : isGap c = true) (start : Nat) (text : List Char) :
    pull start (c :: text) = pull (start + c.utf8Size) text := by
  rw [pull, if_pos h]

theorem pull_cut {c : Char} {t : Token.Cut} (h : isGap c = false) (hcut : Token.cut c text = .ok t)
    (start : Nat) :
    pull start (c :: text) = .ok (⟨t.token, start, start + width t.spelling⟩, t.rest) := by
  rw [pull, if_neg (by simp [h]), hcut]

theorem pull_fault {c : Char} {fault : LexicalFault} (h : isGap c = false)
    (hcut : Token.cut c text = .error fault) (start : Nat) :
    pull start (c :: text) = .error (.fault fault start) := by
  rw [pull, if_neg (by simp [h]), hcut]

theorem length_lt_of_pull (h : pull start text = .ok (l, rest)) : rest.length < text.length := by
  induction text generalizing start with
  | nil => cases h
  | cons c text ih =>
    cases hgap : isGap c with
    | true =>
      rw [pull_gap hgap] at h
      exact Nat.lt_succ_of_lt (ih h)
    | false =>
      cases hcut : Token.cut c text with
      | error fault =>
        rw [pull_fault hgap hcut] at h
        cases h
      | ok t =>
        rw [pull_cut hgap hcut] at h
        cases h
        exact Token.length_rest_lt hcut

/-- Cutting a text begins with the token it starts with. -/
theorem lexFrom_of_pull_ok (h : pull start text = .ok (l, rest)) :
    lexFrom text start [] = (lexFrom rest l.stop []).after [l] := by
  induction text generalizing start with
  | nil => cases h
  | cons c text ih =>
    cases hgap : isGap c with
    | true =>
      rw [pull_gap hgap] at h
      rw [lexFrom_gap _ _ hgap, ih h]
    | false =>
      cases hcut : Token.cut c text with
      | error fault =>
        rw [pull_fault hgap hcut] at h
        cases h
      | ok t =>
        rw [pull_cut hgap hcut] at h
        cases h
        exact lexFrom_cut_nil start hgap hcut

theorem lexFrom_of_pull_error (h : pull start text = .error ending) :
    lexFrom text start [] = ⟨[], ending⟩ := by
  induction text generalizing start with
  | nil =>
    cases h
    exact lexFrom_nil start []
  | cons c text ih =>
    cases hgap : isGap c with
    | true =>
      rw [pull_gap hgap] at h
      rw [lexFrom_gap _ _ hgap, ih h]
    | false =>
      cases hcut : Token.cut c text with
      | error fault =>
        rw [pull_fault hgap hcut] at h
        cases h
        exact lexFrom_fault start [] hgap hcut
      | ok t =>
        rw [pull_cut hgap hcut] at h
        cases h

end Pull

/-! ### One pass -/

namespace Engine

/-- The number that comes right behind a function, where the text goes on behind it, and
that text. -/
def argument (start : Nat) (text : List Char) : Except EvalError (Float × Nat × List Char) :=
  match pull start text with
  | .ok (⟨.number x, _, stop⟩, rest) => .ok (x, stop, rest)
  | .ok (l, _) => .error (.located .missingNumber l.start)
  | .error (.fault cause i) => .error (.located (.lexical cause) i)
  | .error (.complete stop) => .error (.located .missingNumber stop)

theorem length_lt_of_argument {start stop : Nat} {text rest : List Char} {x : Float}
    (h : argument start text = .ok (x, stop, rest)) : rest.length < text.length := by
  unfold argument at h
  split at h
  · next hpull =>
    cases h
    exact length_lt_of_pull hpull
  all_goals cases h

/-- The value of a text with these operands and pending entries before it. Tokens are taken
off the text one at a time, in two places: here, and where a function needs its number. -/
def scan (operands : List Float) (pending : List Pending) (start : Nat) (text : List Char) :
    Except EvalError Float :=
  match _hpull : pull start text with
  | .error ending => finish ⟨operands, pending, none⟩ ending
  | .ok (l, rest) =>
    match l.token with
    | .function f =>
      match _hargument : argument l.stop rest with
      | .ok (x, stop, rest) =>
        match located l.start (f.apply x) with
        | .ok y => scan (y :: operands) pending stop rest
        | .error e => .error e
      | .error e => .error e
    | _ =>
      match step ⟨operands, pending, none⟩ l with
      | .ok engine => scan engine.operands engine.pending l.stop rest
      | .error e => .error e
termination_by text.length
decreasing_by
  · exact (length_lt_of_argument _hargument).trans (length_lt_of_pull _hpull)
  · exact length_lt_of_pull _hpull

section Scan
variable (operands : List Float) (pending : List Pending) {start : Nat} {text rest : List Char}
  {l : Lexeme}

theorem scan_end {ending : Ending} (h : pull start text = .error ending) :
    scan operands pending start text = finish ⟨operands, pending, none⟩ ending := by
  rw [scan]
  split
  · next ending' h' => rw [h] at h'; cases h'; rfl
  · next h' => rw [h] at h'; cases h'

theorem scan_function {f : UnaryFunction} (h : pull start text = .ok (l, rest))
    (hl : l.token = .function f) :
    scan operands pending start text = argument l.stop rest >>= fun a =>
      located l.start (f.apply a.1) >>= fun y => scan (y :: operands) pending a.2.1 a.2.2 := by
  rw [scan]
  split
  · next h' => rw [h] at h'; cases h'
  · next h' =>
    rw [h] at h'
    cases h'
    split
    · next g hg =>
      rw [hl] at hg
      cases hg
      split
      · next x stop rest' hargument =>
        rw [hargument, ok_bind]
        cases located l.start (f.apply x) <;> rfl
      · next e hargument => rw [hargument]; rfl
    · next hother => exact absurd hl (hother f)

theorem scan_step (h : pull start text = .ok (l, rest)) (hl : ∀ f, l.token ≠ .function f) :
    scan operands pending start text = step ⟨operands, pending, none⟩ l >>= fun engine =>
      scan engine.operands engine.pending l.stop rest := by
  rw [scan]
  split
  · next h' => rw [h] at h'; cases h'
  · next h' =>
    rw [h] at h'
    cases h'
    split
    · next f hf => exact absurd hf (hl f)
    · cases step ⟨operands, pending, none⟩ l <;> rfl

end Scan

/-- Only a function waits. -/
theorem waiting_of_step {engine engine' : Engine} {l : Lexeme} (hl : ∀ f, l.token ≠ .function f)
    (h : engine.step l = .ok engine') : engine'.waiting = none := by
  rcases step_cases h with ⟨f, i, x, y, _, _, _, rfl⟩ | ⟨_, ⟨x, _, rfl⟩ | ⟨f, htoken, rfl⟩ |
    ⟨op, operands, pending, _, _, rfl⟩ | ⟨_, rfl⟩ | ⟨operands, i, pending, _, _, rfl⟩⟩
  case inr.inr.inl => exact absurd htoken (hl f)
  all_goals rfl

/-- A function that waits takes what is pulled next as its number. -/
theorem feed_waiting (operands : List Float) (pending : List Pending) (f : UnaryFunction)
    (i start : Nat) (text : List Char) :
    ((feed ⟨operands, pending, some (f, i)⟩ (lexFrom text start []).lexemes) >>= fun engine =>
        engine.finish (lexFrom text start []).ending) =
      argument start text >>= fun a => located i (f.apply a.1) >>= fun y =>
        feed ⟨y :: operands, pending, none⟩ (lexFrom a.2.2 a.2.1 []).lexemes >>= fun engine =>
          engine.finish (lexFrom a.2.2 a.2.1 []).ending := by
  unfold argument
  cases hpull : pull start text with
  | error ending =>
    rw [lexFrom_of_pull_error hpull]
    cases ending <;> rfl
  | ok next =>
    obtain ⟨⟨token, istart, stop⟩, rest⟩ := next
    rw [lexFrom_of_pull_ok hpull]
    show (feed _ (_ :: _) >>= _) = _
    rw [feed_cons]
    cases token with
    | number x =>
      rw [step_argument, bind_assoc, bind_assoc]
      rfl
    | _ => rfl

/-- **To read and to evaluate at once comes to the same as one after the other.** -/
theorem scan_eq (operands : List Float) (pending : List Pending) (start : Nat)
    (text : List Char) :
    scan operands pending start text =
      feed ⟨operands, pending, none⟩ (lexFrom text start []).lexemes >>= fun engine =>
        engine.finish (lexFrom text start []).ending := by
  -- A function is taken off together with its number, so the induction is on the length.
  induction hlength : text.length using Nat.strong_induction_on
    generalizing operands pending start text with
  | _ length ih =>
    subst hlength
    cases hpull : pull start text with
    | error ending =>
      rw [scan_end _ _ hpull, lexFrom_of_pull_error hpull]
      rfl
    | ok next =>
      obtain ⟨l, rest⟩ := next
      have hrest := length_lt_of_pull hpull
      rw [lexFrom_of_pull_ok hpull]
      show _ = (feed _ (l :: (lexFrom rest l.stop []).lexemes) >>= _)
      by_cases hfunction : ∃ f, l.token = .function f
      · obtain ⟨f, hl⟩ := hfunction
        obtain ⟨_, istart, stop⟩ := l
        dsimp only at hl
        subst hl
        rw [scan_function _ _ hpull rfl, feed_cons, step_function, ok_bind]
        show _ = (feed ⟨operands, pending, some (f, istart)⟩ (lexFrom rest stop []).lexemes >>=
          fun engine => engine.finish (lexFrom rest stop []).ending)
        rw [feed_waiting]
        cases hargument : argument stop rest with
        | error e => rfl
        | ok a =>
          obtain ⟨x, stop', rest'⟩ := a
          have hshorter := (length_lt_of_argument hargument).trans hrest
          simp only [ok_bind, ih _ hshorter _ _ _ _ rfl]
      · rw [not_exists] at hfunction
        rw [scan_step _ _ hpull hfunction, feed_cons, bind_assoc]
        cases hstep : step ⟨operands, pending, none⟩ l with
        | error e => rfl
        | ok engine =>
          have hwaiting := waiting_of_step hfunction hstep
          obtain ⟨operands', pending', _⟩ := engine
          dsimp only at hwaiting
          subst hwaiting
          exact ih _ hrest _ _ _ _ rfl

end Engine

/-! ### Errors of the text -/

/-- An error of a run is at one of its lexemes and is none of the text itself. -/
theorem Engine.exists_mem_of_feed_error {lexemes : List Lexeme} {fault : Fault} {i : Nat}
    (h : start.feed lexemes = .error (.located fault i)) :
    (∃ l ∈ lexemes, l.start = i) ∧ ∀ cause, fault ≠ .lexical cause := by
  -- The text may end anywhere, say elsewhere than at the error.
  have hblames : (⟨lexemes, .complete (i + 1)⟩ : Lexed).Blames fault i :=
    (blames_or_stems_of_feed rfl stems_start).1 fault i h
  rcases hblames.cases with ⟨cause, -, hending⟩ | ⟨-, hending, -⟩ | ⟨l, hl, hi, hfault⟩
  · cases hending
  · cases hending
  · exact ⟨⟨l, hl, hi⟩, hfault⟩

/-- What comes earlier in bytes comes earlier in characters. -/
theorem length_lt_of_width_lt {a b x y : List Char} (h : a ++ x = b ++ y)
    (hlt : width a < width b) : a.length < b.length := by
  by_contra hle
  obtain ⟨more, rfl⟩ : b <+: a :=
    List.prefix_of_prefix_length_le ⟨y, h.symm⟩ ⟨x, rfl⟩ (Nat.not_lt.mp hle)
  rw [width_append] at hlt
  omega

/-- An error that is none of the text itself and, if it has a place, comes before this one. -/
def EvalError.Precedes (place : Nat) : EvalError → Prop
  | .located fault i => (∀ cause, fault ≠ .lexical cause) ∧ i < place
  | .incomplete => True

section Source
variable {source : String} {cause : LexicalFault} {byte : Nat}

theorem evaluate_of_feed_ok (hending : (lex source).ending = .fault cause byte) {engine : Engine}
    (hfeed : Engine.start.feed (lex source).lexemes = .ok engine) :
    evaluate source = .error (.located (.lexical cause) (charOffset source.toList byte)) := by
  rw [evaluate, Engine.evaluate, hfeed, hending]
  rfl

theorem evaluate_of_feed_error {e : EvalError}
    (hfeed : Engine.start.feed (lex source).lexemes = .error e) :
    evaluate source = .error (e.mapPosition (charOffset source.toList)) := by
  rw [evaluate, Engine.evaluate, hfeed]
  rfl

/-- Tokens before the place where a text cannot be cut fail before that place. -/
theorem precedes_of_feed_error {before after : List Char} (htext : source.toList = before ++ after)
    (hending : (lex source).ending = .fault cause (width before)) {e : EvalError}
    (hfeed : Engine.start.feed (lex source).lexemes = .error e) :
    (e.mapPosition (charOffset source.toList)).Precedes before.length := by
  cases e with
  | incomplete => trivial
  | located fault i =>
    obtain ⟨⟨l, hl, rfl⟩, hfault⟩ := Engine.exists_mem_of_feed_error hfeed
    refine ⟨hfault, ?_⟩
    have hgapped := gapped_lex source
    rw [hending] at hgapped
    have hlt : ∀ l ∈ (lex source).lexemes, l.start < l.stop := fun l hl =>
      (standsIn_lex source l hl).lt
    have hstart : l.start < width before := (hlt l hl).trans_le ((hgapped.stop_le hlt).2 l hl)
    obtain ⟨front, rest, hfront, hl, -⟩ := exists_starts_of_mem hl
    rw [hl] at hstart ⊢
    rw [hfront, charOffset_width]
    exact length_lt_of_width_lt (hfront.symm.trans htext) hstart

/-- Where a text is cut to its end, no error is one of the text itself. -/
theorem not_lexical_of_complete (h : (lex source).Complete) (cause : LexicalFault) (p : Nat) :
    evaluate source ≠ .error (.located (.lexical cause) p) := by
  intro herror
  obtain ⟨stop, hstop⟩ := h
  obtain ⟨byte, hbyte, -⟩ := mapPosition_eq_located_iff.mp herror
  rcases (Engine.blames_of_evaluate hbyte).cases with ⟨_, -, hending⟩ | ⟨hfault, -⟩ |
    ⟨_, -, -, hfault⟩
  · rw [hstop] at hending
    cases hending
  · cases hfault
  · exact hfault cause rfl

end Source

/-- The answer if a source cannot be cut behind `before`: it is this, or an earlier error of
the tokens. -/
inductive Uncut (source : String) (cause : LexicalFault) (before : List Char) : Prop where
  | answered (engine : Engine) (hfeed : Engine.start.feed (lex source).lexemes = .ok engine)
    (h : evaluate source = .error (.located (.lexical cause) before.length))
  | preceded (e : EvalError) (hfeed : Engine.start.feed (lex source).lexemes = .error e)
    (h : evaluate source = .error (e.mapPosition (charOffset source.toList)))
    (hplace : (e.mapPosition (charOffset source.toList)).Precedes before.length)

/-- **Errors of the text are neither hidden nor made up.** Evaluating a text as it is read gives
what evaluating its tokens gives. If it cannot be cut to its end, the answer is an error: the
one that is found there, placed there, unless the tokens before it fail, which they do at an
earlier place if at any. If it can be cut to its end, no error says otherwise. -/
theorem evaluate_lexical (source : String) :
    evaluate source = (Engine.scan [] [] 0 source.toList).mapError
        (EvalError.mapPosition (charOffset source.toList)) ∧
    (∀ cause byte, (lex source).ending = .fault cause byte →
      ∃ before after, source.toList = before ++ after ∧ byte = width before ∧
        (Fault.lexical cause).Shows source before after ∧ Uncut source cause before) ∧
    ((lex source).Complete →
      ∀ cause p, evaluate source ≠ .error (.located (.lexical cause) p)) := by
  refine ⟨?_, fun cause byte hending => ?_, not_lexical_of_complete⟩
  · rw [Engine.scan_eq]
    rfl
  · obtain ⟨before, after, htext, rfl, hshows⟩ := exists_shows_of_ending hending
    refine ⟨before, after, htext, rfl, hshows, ?_⟩
    cases hfeed : Engine.start.feed (lex source).lexemes with
    | ok engine =>
      refine .answered engine hfeed ?_
      rw [evaluate_of_feed_ok hending hfeed, htext, charOffset_width]
    | error e =>
      exact .preceded e hfeed (evaluate_of_feed_error hfeed)
        (precedes_of_feed_error htext hending hfeed)

/-- The quotient is only due at the sum, so it fails before the second of these letters and
not before the first. -/
theorem evaluate_lexical_quotient :
    (lex "√4/0π").ending = .fault (.invalidCharacter 'π') 6 ∧
      evaluate "√4/0π" = .error (.located (.lexical (.invalidCharacter 'π')) 4) ∧
      (lex "√4/0+π").ending = .fault (.invalidCharacter 'π') 7 ∧
      evaluate "√4/0+π" = .error (.located .divisionByZero 2) ∧
      (∃ before after, "√4/0+π".toList = before ++ after ∧ 7 = width before ∧
        (Fault.lexical (.invalidCharacter 'π')).Shows "√4/0+π" before after ∧
        Uncut "√4/0+π" (.invalidCharacter 'π') before) ∧
      (lex "√.5 4√").Complete ∧
      ∀ cause p, evaluate "√.5 4√" ≠ .error (.located (.lexical cause) p) := by
  have hending : (lex "√4/0+π").ending = .fault (.invalidCharacter 'π') 7 := by decide +kernel
  have hcomplete : (lex "√.5 4√").Complete := by decide +kernel
  exact ⟨by decide +kernel, by decide +kernel, hending, by decide +kernel,
    (evaluate_lexical "√4/0+π").2.1 _ _ hending, hcomplete,
    (evaluate_lexical "√.5 4√").2.2 hcomplete⟩

end Calculator
