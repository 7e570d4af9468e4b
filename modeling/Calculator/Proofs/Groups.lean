import Calculator.Proofs.Lexing
import Calculator.Proofs.Places

/-! What stands in parentheses is a value.

A right parenthesis does to what has come since the left one just what the end does
to a whole text. A left parenthesis bounds both stacks: what is pending below it is
shielded, and the operands below could only be reached where a text by itself would
lack one. So above any bottom the engine does what it does from empty stacks
(`raised_feed`), and a text in parentheses puts its value on the stack, or gives its
error of arithmetic, wherever it stands (`feed_group`). -/
namespace Calculator

/-! ### Results -/

/-- What succeeds by itself succeeds above a bottom, and its errors of arithmetic are the
same. Nothing is said where an operand or a parenthesis is missing, for the bottom may
provide it. -/
def Raised {α β : Type} (raise : α → β) (r : Except EvalError α) (r' : Except EvalError β) : Prop :=
  match r with
  | .ok a => r' = .ok (raise a)
  | .error e => e.IsArithmetic → r' = .error e

/-- Results raised piece by piece are raised as a whole. -/
theorem Raised.bind {α β α' β' : Type} {raise : α → α'} {raise' : β → β'}
    {r : Except EvalError α} {r' : Except EvalError α'} {g : α → Except EvalError β}
    {g' : α' → Except EvalError β'} (h : Raised raise r r')
    (hg : ∀ a, Raised raise' (g a) (g' (raise a))) : Raised raise' (r >>= g) (r' >>= g') := by
  cases r with
  | ok a =>
    have hok : r' = .ok (raise a) := h
    rw [hok]
    exact hg a
  | error e =>
    intro he
    rw [h he]
    rfl

/-! ### Above a left parenthesis -/

namespace Engine
variable (below : List Float) (i : Nat) (outer : List Pending)

/-- The engine with these stacks at the bottom of its own, and a left parenthesis between
what is pending. -/
def above (engine : Engine) : Engine :=
  ⟨engine.operands ++ below, engine.pending ++ .leftParen i :: outer, engine.waiting⟩

def aboveBoth (both : List Float × List Pending) : List Float × List Pending :=
  (both.1 ++ below, both.2 ++ .leftParen i :: outer)

theorem raised_located {α : Type} (j : Nat) (r : Except Fault α) :
    Raised id (located j r) (located j r) := by
  cases r with
  | ok a => rfl
  | error fault => exact fun _ => rfl

theorem raised_reduce (op : Operator) (j : Nat) (operands : List Float) :
    Raised (· ++ below) (reduce op j operands) (reduce op j (operands ++ below)) := by
  match operands with
  | [] => exact fun h => h.elim
  | [_] => exact fun h => h.elim
  | right :: left :: operands => exact (raised_located j _).bind fun _ => rfl

theorem raised_settle (level : Nat) (operands : List Float) (pending : List Pending) :
    Raised (aboveBoth below i outer) (settle level operands pending)
      (settle level (operands ++ below) (pending ++ .leftParen i :: outer)) := by
  induction pending generalizing operands with
  | nil => rfl
  | cons entry pending ih =>
    cases entry with
    | leftParen j => rfl
    | operator op j =>
      rw [List.cons_append]
      by_cases h : level ≤ op.precedence
      · rw [settle_operator h, settle_operator h]
        exact (raised_reduce below op j operands).bind ih
      · have hlow : Shielded level (.operator op j :: pending) := Nat.not_le.mp h
        have hlow' : Shielded level (.operator op j :: (pending ++ .leftParen i :: outer)) :=
          Nat.not_le.mp h
        rw [settle_of_shielded hlow, settle_of_shielded hlow']
        rfl

theorem raised_step (lexeme : Lexeme) (engine : Engine) :
    Raised (above below i outer) (engine.step lexeme) ((engine.above below i outer).step lexeme) := by
  obtain ⟨operands, pending, waiting⟩ := engine
  obtain ⟨token, start, stop⟩ := lexeme
  cases waiting with
  | some waiting =>
    obtain ⟨f, j⟩ := waiting
    cases token with
    | number x =>
      rw [above, step_argument, step_argument]
      exact (raised_located j _).bind fun _ => rfl
    | _ => exact fun h => h.elim
  | none =>
    cases token with
    | operator op =>
      rw [above, step_operator, step_operator]
      exact (raised_settle below i outer _ operands pending).bind fun _ => rfl
    | rightParen =>
      rw [above, step_rightParen, step_rightParen]
      refine (raised_settle below i outer _ operands pending).bind fun both => ?_
      match both with
      | (_, []) => exact fun h => h.elim
      | (_, _ :: _) => rfl
    | _ => rfl

/-- **A run by itself is a run above any bottom.** -/
theorem raised_feed (lexemes : List Lexeme) (engine : Engine) :
    Raised (above below i outer) (engine.feed lexemes)
      ((engine.above below i outer).feed lexemes) := by
  induction lexemes generalizing engine with
  | nil => rfl
  | cons lexeme lexemes ih =>
    rw [feed_cons, feed_cons]
    exact (raised_step below i outer lexeme engine).bind ih

/-- A right parenthesis does what the end of a text does. -/
theorem raised_closed (start : Nat) (both : List Float × List Pending) :
    Raised (fun v => ⟨v :: below, outer, none⟩) (drained both)
      (closed start (aboveBoth below i outer both)) := by
  match both with
  | ([v], []) => rfl
  | ([], []) | (_ :: _ :: _, []) => exact fun h => h.elim
  | (_, .leftParen _ :: _) => exact fun h => h.elim
  | ([], .operator _ _ :: _) | ([_], .operator _ _ :: _) | (_ :: _ :: _, .operator _ _ :: _) =>
    exact fun h => h.elim

theorem raised_finish (engine : Engine) (start stop : Nat) :
    Raised (fun v => ⟨v :: below, outer, none⟩) (engine.finish (.complete start))
      ((engine.above below i outer).step ⟨.rightParen, start, stop⟩) := by
  obtain ⟨operands, pending, waiting⟩ := engine
  cases waiting with
  | some waiting => exact fun h => h.elim
  | none =>
    rw [above, step_rightParen, finish_complete]
    exact (raised_settle below i outer _ operands pending).bind (raised_closed below i outer start)

end Engine

/-! ### Cutting a group -/

theorem lexFrom_leftParen (text : List Char) (start : Nat) :
    lexFrom ('(' :: text) start [] =
      (lexFrom text (start + 1) []).after [⟨.leftParen, start, start + 1⟩] :=
  lexFrom_cut_nil (t := ⟨.leftParen, ['('], text⟩) start (by decide) rfl

theorem lexFrom_rightParen (text : List Char) (start : Nat) :
    lexFrom (')' :: text) start [] =
      (lexFrom text (start + 1) []).after [⟨.rightParen, start, start + 1⟩] :=
  lexFrom_cut_nil (t := ⟨.rightParen, [')'], text⟩) start (by decide) rfl

/-- A text in parentheses, cut from byte `start` on. -/
def group (text : List Char) (start : Nat) : Lexed := lexFrom ('(' :: text ++ [')']) start []

theorem lexFrom_group (text after : List Char) (start : Nat) :
    lexFrom ('(' :: text ++ ')' :: after) start [] =
      (group text start).resume fun stop => lexFrom after stop [] := by
  rw [group, lexFrom_append delimits_rightParen, lexFrom_append delimits_rightParen,
    Lexed.resume_resume]
  congr
  funext stop
  rw [lexFrom_rightParen, lexFrom_rightParen, Lexed.resume_after, lexFrom_nil]
  simp [Lexed.resume, Lexed.after]

/-- Goes on with a right parenthesis. -/
def Lexed.close (lexed : Lexed) : Lexed :=
  lexed.resume fun stop => ⟨[⟨.rightParen, stop, stop + 1⟩], .complete (stop + 1)⟩

/-- Between its parentheses a group is cut like the text by itself. -/
theorem group_eq (text : List Char) (start : Nat) :
    group text start =
      ((lexFrom text 0 []).moveBy (start + 1)).close.after [⟨.leftParen, start, start + 1⟩] := by
  have hinner := lexFrom_add text 0 (start + 1)
  rw [Nat.zero_add] at hinner
  rw [group, List.cons_append, lexFrom_leftParen, lexFrom_append delimits_rightParen, hinner]
  congr
  funext stop
  rw [lexFrom_rightParen, lexFrom_nil]
  rfl

/-! ### Places in a text -/

theorem renamed_moveBy (n : Nat) (lexed : Lexed) :
    Lexed.Renamed (· + n) lexed (lexed.moveBy n) where
  lexemes := List.forall₂_map_right_iff.mpr (List.forall₂_same.mpr fun _ _ => ⟨rfl, rfl⟩)
  ending := by
    obtain ⟨lexemes, ending⟩ := lexed
    cases ending <;> rfl

/-- **Every error is placed within the text.** -/
theorem Engine.le_width_of_evaluate {text : List Char} {fault : Fault} {i : Nat}
    (h : Engine.evaluate (lexFrom text 0 []) = .error (.located fault i)) : i ≤ width text := by
  -- Places beyond the end may be renamed to the end, since there are none.
  have hself : Lexed.Renamed (min · (width text)) (lexFrom text 0 []) (lexFrom text 0 []) := by
    constructor
    · refine List.forall₂_same.mpr fun l hl => ⟨rfl, ?_⟩
      have := le_of_mem_lexFrom hl
      show l.start = min l.start (width text)
      omega
    · cases hend : (lexFrom text 0 []).ending with
      | complete stop =>
        have := stop_of_complete hend
        rw [Ending.relabel, Nat.min_eq_left (by omega)]
      | fault cause start =>
        have := le_of_fault hend
        rw [Ending.relabel, Nat.min_eq_left (by omega)]
  have hclipped := Engine.evaluate_renamed _ hself
  rw [h] at hclipped
  have hi : i = min i (width text) := by injection hclipped with heq; injection heq
  omega

/-- Behind some text and a left parenthesis, places are that much further on. -/
theorem charOffset_group {text : List Char} {byte : Nat} (h : byte ≤ width text)
    (before after : List Char) :
    charOffset (before ++ '(' :: text ++ ')' :: after) (byte + (width before + 1)) =
      before.length + 1 + charOffset text byte := by
  have hfront : before ++ '(' :: text ++ ')' :: after =
      (before ++ ['(']) ++ (text ++ ')' :: after) := by simp
  have hbyte : byte + (width before + 1) = width (before ++ ['(']) + byte := by
    rw [width_append, Nat.add_comm]
    rfl
  rw [hfront, hbyte, charOffset_append, charOffset_append_left h, List.length_append]
  rfl

/-! ### Groups -/

theorem Engine.raised_group (below : List Float) (i : Nat) (outer : List Pending) (lexed : Lexed) :
    Raised (fun v => ⟨v :: below, outer, none⟩) (Engine.evaluate lexed)
      (feed ⟨below, outer, none⟩ (lexed.close.after [⟨.leftParen, i, i + 1⟩]).lexemes) := by
  obtain ⟨lexemes, ending⟩ := lexed
  have hinner := raised_feed below i outer lexemes start
  cases ending with
  | complete stop =>
    show Raised _ _ (feed ⟨below, outer, none⟩ (_ :: (lexemes ++ [⟨.rightParen, stop, stop + 1⟩])))
    rw [feed_cons, step_leftParen, ok_bind, feed_append]
    refine hinner.bind fun engine => ?_
    rw [feed_singleton]
    exact raised_finish below i outer engine stop (stop + 1)
  | fault cause j =>
    show Raised _ _ (feed ⟨below, outer, none⟩ (_ :: lexemes))
    rw [feed_cons, step_leftParen, ok_bind, ← bind_pure (feed _ lexemes)]
    exact hinner.bind fun _ h => h.elim

theorem feed_group_of_ok {e : String} {v : Float} (h : evaluate e = .ok v) (start : Nat)
    (operands : List Float) (pending : List Pending) :
    Engine.feed ⟨operands, pending, none⟩ (group e.toList start).lexemes =
      .ok ⟨v :: operands, pending, none⟩ := by
  have hvalue : Engine.evaluate (lex e) = .ok v := mapPosition_eq_ok_iff.mp h
  have hgroup := Engine.raised_group operands start pending ((lex e).moveBy (start + 1))
  rw [Engine.evaluate_renamed _ (renamed_moveBy (start + 1) (lex e)), hvalue] at hgroup
  rw [group_eq]
  exact hgroup

theorem feed_group_of_error {e : String} {fault : Fault} {i : Nat} (hfault : fault.IsArithmetic)
    (h : evaluate e = .error (.located fault i)) (before after : List Char)
    (operands : List Float) (pending : List Pending) :
    (Engine.feed ⟨operands, pending, none⟩ (group e.toList (width before)).lexemes).mapError
        (EvalError.mapPosition (charOffset (before ++ '(' :: e.toList ++ ')' :: after))) =
      .error (.located fault (before.length + 1 + i)) := by
  obtain ⟨byte, hbyte, rfl⟩ := mapPosition_eq_located_iff.mp h
  have hgroup := Engine.raised_group operands (width before) pending
    ((lex e).moveBy (width before + 1))
  rw [Engine.evaluate_renamed _ (renamed_moveBy (width before + 1) (lex e)), hbyte] at hgroup
  have herror : Engine.feed ⟨operands, pending, none⟩ (group e.toList (width before)).lexemes =
      .error (.located fault (byte + (width before + 1))) := by
    rw [group_eq]
    exact hgroup hfault
  rw [herror, ← charOffset_group (Engine.le_width_of_evaluate hbyte) before after]
  rfl

/-- A text with a value is complete, and so is the group. -/
theorem evaluate_group {e : String} {v : Float} (h : evaluate e = .ok v) :
    evaluate (String.ofList ('(' :: e.toList ++ [')'])) = .ok v := by
  obtain ⟨stop, hstop⟩ := complete_of_evaluate h
  have hfeed := feed_group_of_ok h 0 [] []
  have hending : (group e.toList 0).ending = .complete (stop + 1 + 1) := by
    rw [group_eq]
    show (((lex e).moveBy 1).close).ending = _
    unfold Lexed.close Lexed.resume Lexed.moveBy
    rw [hstop]
    rfl
  show (Engine.evaluate (lexFrom (String.ofList _).toList 0 [])).mapError _ = _
  rw [String.toList_ofList]
  show (Engine.start.feed (group e.toList 0).lexemes >>= fun engine =>
    engine.finish (group e.toList 0).ending).mapError _ = _
  rw [hending]
  show (Engine.feed ⟨[], [], none⟩ (group e.toList 0).lexemes >>= _).mapError _ = _
  rw [hfeed]
  rfl

theorem evaluate_replicate {e : String} {v : Float} (h : evaluate e = .ok v) (n : Nat) :
    evaluate (String.ofList (List.replicate n '(' ++ e.toList ++ List.replicate n ')')) = .ok v := by
  induction n with
  | zero => simpa using h
  | succ n ih =>
    have hgroup := evaluate_group ih
    rw [String.toList_ofList] at hgroup
    rw [List.replicate_succ, List.replicate_succ']
    simpa using hgroup

/-- **A text in parentheses is a value wherever it stands.** The larger text is cut before
and after it as if it stood apart. From whatever stacks, the engine comes out with the
value of the text pushed and all else as it was; an error of arithmetic stays the same
and moves along. More parentheses change nothing. -/
theorem feed_group (e : String) (before after : List Char) (operands : List Float)
    (pending : List Pending) :
    lexFrom (before ++ '(' :: e.toList ++ ')' :: after) 0 [] =
        ((lexFrom before 0 []).resume (group e.toList)).resume (fun stop => lexFrom after stop []) ∧
      (∀ v, evaluate e = .ok v →
        Engine.feed ⟨operands, pending, none⟩ (group e.toList (width before)).lexemes =
          .ok ⟨v :: operands, pending, none⟩) ∧
      (∀ fault i, fault.IsArithmetic → evaluate e = .error (.located fault i) →
        (Engine.feed ⟨operands, pending, none⟩ (group e.toList (width before)).lexemes).mapError
            (EvalError.mapPosition (charOffset (before ++ '(' :: e.toList ++ ')' :: after))) =
          .error (.located fault (before.length + 1 + i))) ∧
      ∀ v, evaluate e = .ok v → ∀ n,
        evaluate (String.ofList (List.replicate n '(' ++ e.toList ++ List.replicate n ')')) =
          .ok v := by
  refine ⟨?_, fun v h => feed_group_of_ok h _ _ _,
    fun fault i hfault h => feed_group_of_error hfault h before after _ _,
    fun v h n => evaluate_replicate h n⟩
  rw [List.append_assoc, List.cons_append, lexFrom_append delimits_leftParen, Lexed.resume_resume]
  congr
  funext start
  exact lexFrom_group e.toList after start

/-- In the midst of a text `1 2+` is worth three, and `1/0` fails there as it does alone,
behind three characters of five bytes. -/
theorem feed_group_misplaced :
    Engine.feed ⟨[7], [.operator .mul 1], none⟩ (group ['1', ' ', '2', '+'] 2).lexemes =
        .ok ⟨[3, 7], [.operator .mul 1], none⟩ ∧
      (Engine.feed ⟨[2], [.operator .mul 4], none⟩ (group ['1', '/', '0'] 5).lexemes).mapError
          (EvalError.mapPosition (charOffset ['√', '4', '*', '(', '1', '/', '0', ')'])) =
        .error (.located .divisionByZero 5) ∧
      evaluate "((1 2+))" = .ok 3 := by
  have hvalue : evaluate "1 2+" = .ok 3 := by decide +kernel
  have hfault : evaluate "1/0" = .error (.located .divisionByZero 1) := by decide +kernel
  obtain ⟨-, hfeed, -, hmore⟩ := feed_group "1 2+" ['7', '*'] [] [7] [.operator .mul 1]
  obtain ⟨-, -, herror, -⟩ := feed_group "1/0" ['√', '4', '*'] [] [2] [.operator .mul 4]
  exact ⟨hfeed 3 hvalue, herror .divisionByZero 1 trivial hfault, hmore 3 hvalue 2⟩

end Calculator
