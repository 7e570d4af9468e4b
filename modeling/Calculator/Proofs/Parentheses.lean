import Calculator.Proofs.Nesting
import Calculator.Proofs.Positions
import Calculator.Proofs.Stopping

/-! Which parenthesis is reported.

A text is `Paired` if its parentheses are, which is a matter of counting them. Those that
wait on the stack of the engine are just the ones that are open so far, each at its own
place (`Unclosed`), whatever has been reduced in between. So the engine stumbles over the
first right parenthesis that is one too many, and at the end of a text without any over
the last left one that has no partner (`evaluate_unbalanced`). -/
namespace Calculator
open Decimal.Literal (isNumeral)

/-! ### Counting parentheses -/

/-- Nowhere have more parentheses been closed than opened, and in the end there are as many
of both. -/
structure Paired (text : List Char) : Prop where
  le_of_prefix : ∀ front, front <+: text → front.count ')' ≤ front.count '('
  count_eq : text.count ')' = text.count '('

/-- A right parenthesis behind this text is one too many. -/
def Exceeds (before : List Char) : Prop := before.count '(' < (before ++ [')']).count ')'

/-- A left parenthesis in front of this text has its partner in it. -/
def Closed (after : List Char) : Prop := ∃ inner rest, after = inner ++ ')' :: rest ∧ Paired inner

/-- The parentheses of a text as tokens. -/
def parentheses (text : List Char) : List Token :=
  text.filterMap fun c =>
    if c = '(' then some .leftParen else if c = ')' then some .rightParen else none

theorem parentheses_append (text more : List Char) :
    parentheses (text ++ more) = parentheses text ++ parentheses more := List.filterMap_append

section Counting
variable {n m : Nat} {text : List Char}

theorem openAfter_leftParen (n : Nat) (text : List Char) :
    Token.openAfter n (parentheses ('(' :: text)) = Token.openAfter (n + 1) (parentheses text) :=
  rfl

theorem openAfter_rightParen_zero (text : List Char) :
    Token.openAfter 0 (parentheses (')' :: text)) = none := rfl

theorem openAfter_rightParen_succ (n : Nat) (text : List Char) :
    Token.openAfter (n + 1) (parentheses (')' :: text)) = Token.openAfter n (parentheses text) :=
  rfl

theorem parentheses_cons {c : Char} (hl : c ≠ '(') (hr : c ≠ ')') (text : List Char) :
    parentheses (c :: text) = parentheses text := by
  rw [parentheses, List.filterMap_cons, if_neg hl, if_neg hr]
  rfl

theorem parentheses_of_forall (h : ∀ c ∈ text, c ≠ '(' ∧ c ≠ ')') : parentheses text = [] := by
  induction text with
  | nil => rfl
  | cons c text ih =>
    obtain ⟨hl, hr⟩ := h c List.mem_cons_self
    rw [parentheses_cons hl hr]
    exact ih fun d hd => h d (List.mem_cons_of_mem c hd)

theorem forall_prefix_cons {c : Char} {P : List Char → Prop} :
    (∀ front, front <+: c :: text → P front) ↔ P [] ∧ ∀ front, front <+: text → P (c :: front) := by
  constructor
  · intro h
    exact ⟨h [] List.nil_prefix, fun front hfront => h _ (List.cons_prefix_cons.mpr ⟨rfl, hfront⟩)⟩
  · rintro ⟨hnil, hcons⟩ front hfront
    rcases List.prefix_cons_iff.mp hfront with rfl | ⟨rest, rfl, hrest⟩
    · exact hnil
    · exact hcons rest hrest

/-- How many parentheses are open is a matter of counting. -/
theorem openAfter_eq_some_iff : Token.openAfter n (parentheses text) = some m ↔
    (∀ front, front <+: text → front.count ')' ≤ n + front.count '(') ∧
      n + text.count '(' = m + text.count ')' := by
  induction text generalizing n with
  | nil => simp [parentheses, Token.openAfter]
  | cons c text ih =>
    rw [forall_prefix_cons]
    by_cases hl : c = '('
    · subst hl
      rw [openAfter_leftParen, ih]
      simp [Nat.add_assoc, Nat.add_comm 1]
    by_cases hr : c = ')'
    · subst hr
      cases n with
      | zero =>
        -- The first character closes what is not open.
        rw [openAfter_rightParen_zero]
        refine iff_of_false nofun fun h => ?_
        have hfirst := h.1.2 [] List.nil_prefix
        simp at hfirst
      | succ n =>
        rw [openAfter_rightParen_succ, ih]
        simp only [List.count_cons_self, List.count_cons_of_ne hl, List.count_nil, Nat.zero_le,
          true_and]
        have hfront : ∀ a b, a + 1 ≤ n + 1 + b ↔ a ≤ n + b := by omega
        have hall : n + 1 + text.count '(' = m + (text.count ')' + 1) ↔
            n + text.count '(' = m + text.count ')' := by omega
        simp only [hfront, hall]
    · rw [parentheses_cons hl hr, ih]
      simp [hl, hr]

theorem paired_iff : Paired text ↔ Token.Balanced (parentheses text) := by
  rw [Token.Balanced, openAfter_eq_some_iff]
  constructor
  · rintro ⟨hle, hcount⟩
    exact ⟨fun front hfront => by rw [Nat.zero_add]; exact hle front hfront, by rw [hcount]⟩
  · rintro ⟨hle, hcount⟩
    refine ⟨fun front hfront => ?_, by omega⟩
    have := hle front hfront
    omega

instance (text : List Char) : Decidable (Paired text) := decidable_of_iff _ paired_iff.symm

/-- As long as each right parenthesis closes a left one, none is one too many. -/
theorem not_exceeds (h : Token.openAfter 0 (parentheses text) = some m) {before after : List Char}
    (htext : text = before ++ ')' :: after) : ¬ Exceeds before := by
  have hprefix : before ++ [')'] <+: text := ⟨after, by rw [htext, List.append_assoc]; rfl⟩
  have hle := (openAfter_eq_some_iff.mp h).1 _ hprefix
  have hcount : (before ++ [')']).count '(' = before.count '(' := by simp
  rw [Exceeds]
  omega

/-- Behind a paired text there is nothing left to close. -/
theorem Paired.exceeds (h : Paired text) : Exceeds text := by
  have hcount : (text ++ [')']).count ')' = text.count ')' + 1 := by simp
  rw [Exceeds, hcount, h.count_eq]
  exact Nat.lt_succ_self _

theorem Paired.not_exceeds (h : Paired text) {before after : List Char}
    (htext : text = before ++ ')' :: after) : ¬ Exceeds before :=
  Calculator.not_exceeds (paired_iff.mp h) htext

/-- Where more parentheses are closed than opened, some right one closes the left one in
front. -/
theorem exists_closing (h : n + text.count '(' < text.count ')') :
    ∃ inner rest, text = inner ++ ')' :: rest ∧ Token.openAfter n (parentheses inner) = some 0 := by
  induction text generalizing n with
  | nil => simp at h
  | cons c text ih =>
    by_cases hl : c = '('
    · subst hl
      obtain ⟨inner, rest, rfl, hopen⟩ := ih (n := n + 1) (by simp at h; omega)
      exact ⟨'(' :: inner, rest, rfl, hopen⟩
    by_cases hr : c = ')'
    · subst hr
      cases n with
      | zero => exact ⟨[], text, rfl, rfl⟩
      | succ n =>
        obtain ⟨inner, rest, rfl, hopen⟩ := ih (n := n) (by simp at h; omega)
        exact ⟨')' :: inner, rest, rfl, hopen⟩
    · obtain ⟨inner, rest, rfl, hopen⟩ := ih (n := n) (by simpa [hl, hr] using h)
      exact ⟨c :: inner, rest, rfl, by rwa [parentheses_cons hl hr]⟩

/-- In a paired text every left parenthesis has its partner. -/
theorem Paired.closed (h : Paired text) {before after : List Char}
    (htext : text = before ++ '(' :: after) : Closed after := by
  have hbefore := h.le_of_prefix before ⟨'(' :: after, htext.symm⟩
  have hcount := h.count_eq
  rw [htext] at hcount
  have hcloses : 0 + after.count '(' < after.count ')' := by
    simp at hcount
    omega
  obtain ⟨inner, rest, hafter, hopen⟩ := exists_closing hcloses
  exact ⟨inner, rest, hafter, paired_iff.mpr hopen⟩

/-- Behind a paired text nothing closes what was opened before it. -/
theorem Paired.not_closed (h : Paired text) : ¬ Closed text := by
  rintro ⟨inner, rest, rfl, hinner⟩
  have hle := h.le_of_prefix (inner ++ [')']) ⟨rest, by simp⟩
  have hcount := hinner.count_eq
  simp at hle
  omega

end Counting

/-! ### What is open -/

namespace Token
variable {n m : Nat} {tokens more : List Token}

theorem openAfter_append (n : Nat) (tokens more : List Token) :
    openAfter n (tokens ++ more) = openAfter n tokens >>= fun n => openAfter n more :=
  List.foldlM_append

/-- What is open around tokens stays open. -/
theorem openAfter_add (h : openAfter n tokens = some m) (k : Nat) :
    openAfter (n + k) tokens = some (m + k) := by
  induction tokens generalizing n with
  | nil =>
    cases h
    rfl
  | cons token tokens ih =>
    rw [openAfter_cons] at h ⊢
    obtain ⟨l, hnest, h⟩ := Option.bind_eq_some_iff.mp h
    have hnest' : token.nest (n + k) = some (l + k) := by
      cases token with
      | leftParen => cases hnest; exact congrArg some (Nat.add_right_comm n k 1)
      | rightParen =>
        cases n with
        | zero => cases hnest
        | succ n => cases hnest; rw [Nat.add_right_comm]; rfl
      | _ => cases hnest; rfl
    rw [hnest']
    exact ih h

theorem Balanced.openAfter_eq (h : Balanced tokens) (n : Nat) : openAfter n tokens = some n := by
  have := openAfter_add h n
  rwa [Nat.zero_add] at this

theorem Balanced.append (h : Balanced tokens) (hmore : Balanced more) :
    Balanced (tokens ++ more) := by
  rw [Balanced, openAfter_append, h]
  exact hmore

theorem Balanced.group (h : Balanced tokens) :
    Balanced (.leftParen :: tokens ++ [.rightParen]) := by
  show openAfter 1 (tokens ++ [.rightParen]) = some 0
  rw [openAfter_append, h.openAfter_eq]
  rfl

end Token

/-- The left parentheses at these places, the latest first, are those that stay open when
the lexemes have been read: before, between and behind them all is balanced. -/
inductive Unclosed : List Lexeme → List Nat → Prop where
  | balanced {lexemes : List Lexeme} (h : Token.Balanced (lexemes.map Lexeme.token)) :
    Unclosed lexemes []
  | leftParen {before after : List Lexeme} {l : Lexeme} {places : List Nat}
    (h : Unclosed before places) (hl : l.token = .leftParen)
    (hafter : Token.Balanced (after.map Lexeme.token)) :
    Unclosed (before ++ l :: after) (l.start :: places)

namespace Unclosed
variable {lexemes more : List Lexeme} {places : List Nat}

theorem append (h : Unclosed lexemes places) (hmore : Token.Balanced (more.map Lexeme.token)) :
    Unclosed (lexemes ++ more) places := by
  cases h with
  | balanced h =>
    refine .balanced ?_
    rw [List.map_append]
    exact h.append hmore
  | leftParen h hl hafter =>
    rw [List.append_assoc, List.cons_append]
    refine .leftParen h hl ?_
    rw [List.map_append]
    exact hafter.append hmore

/-- A right parenthesis closes the latest left one. -/
theorem close {i : Nat} (h : Unclosed lexemes (i :: places)) {l : Lexeme}
    (hl : l.token = .rightParen) : Unclosed (lexemes ++ [l]) places := by
  cases h with
  | @leftParen before after left _ h hleft hafter =>
    rw [List.append_assoc, List.cons_append]
    refine h.append ?_
    rw [List.map_cons, List.map_append, hleft, List.map_singleton, hl]
    exact hafter.group

theorem openAfter_eq (h : Unclosed lexemes places) :
    Token.openAfter 0 (lexemes.map Lexeme.token) = some places.length := by
  induction h with
  | balanced h => exact h
  | leftParen h hl hafter ih =>
    rw [List.map_append, Token.openAfter_append, ih, List.map_cons, hl]
    exact hafter.openAfter_eq _

end Unclosed

/-! ### The engine -/

namespace Engine

variable {seen lexemes : List Lexeme} {engine engine' : Engine}

theorem unclosed_of_step {l : Lexeme} (h : Unclosed seen (leftParens engine.pending))
    (hstep : engine.step l = .ok engine') :
    Unclosed (seen ++ [l]) (leftParens engine'.pending) := by
  rcases step_cases hstep with ⟨f, i, x, y, _, htoken, _, rfl⟩ | ⟨_, ⟨x, htoken, rfl⟩ |
    ⟨f, htoken, rfl⟩ | ⟨op, operands, pending, htoken, hsettle, rfl⟩ | ⟨htoken, rfl⟩ |
    ⟨operands, i, pending, htoken, hsettle, rfl⟩⟩
  · exact h.append (by rw [List.map_singleton, htoken]; rfl)
  · exact h.append (by rw [List.map_singleton, htoken]; rfl)
  · exact h.append (by rw [List.map_singleton, htoken]; rfl)
  · rw [← leftParens_of_settle hsettle] at h
    exact h.append (by rw [List.map_singleton, htoken]; rfl)
  · exact .leftParen h htoken rfl
  · rw [← leftParens_of_settle hsettle] at h
    exact h.close htoken

/-- **The parentheses on the stack are those that are open.** -/
theorem unclosed_of_feed (h : Unclosed seen (leftParens engine.pending))
    (hfeed : engine.feed lexemes = .ok engine') :
    Unclosed (seen ++ lexemes) (leftParens engine'.pending) := by
  induction lexemes generalizing seen engine with
  | nil =>
    cases hfeed
    rwa [List.append_nil]
  | cons l lexemes ih =>
    rw [feed_cons] at hfeed
    obtain ⟨next, hstep, hfeed⟩ := bind_eq_ok hfeed
    rw [List.append_cons]
    exact ih (unclosed_of_step h hstep) hfeed

/-! What goes wrong with a parenthesis. -/

theorem unbalanced_of_step {l : Lexeme} {i : Nat}
    (h : engine.step l = .error (.located .unbalancedParenthesis i)) :
    l.token = .rightParen ∧ i = l.start ∧ leftParens engine.pending = [] := by
  rcases step_error_cases h with ⟨f, j, x, -, -, hfails⟩ | ⟨f, j, -, -, he⟩ |
    ⟨-, ⟨level, hfails⟩ | ⟨operands, htoken, hsettle, he⟩⟩
  · cases UnaryFunction.isArithmetic_of_apply (located_eq_error hfails).1
  · cases he
  · rcases fault_of_settle hfails with hfault | hfault <;> cases hfault
  · cases he
    exact ⟨htoken, rfl, (leftParens_of_settle hsettle).symm⟩

theorem unbalanced_of_finish {ending : Ending} {i : Nat}
    (h : engine.finish ending = .error (.located .unbalancedParenthesis i)) :
    (∃ stop, ending = .complete stop) ∧ ∃ places, leftParens engine.pending = i :: places := by
  cases ending with
  | fault cause start => cases h
  | complete stop =>
    rcases finish_error_cases h with he | ⟨level, hfails⟩ | ⟨operands, j, pending, hsettle, he⟩ | he
    · cases he
    · rcases fault_of_settle hfails with hfault | hfault <;> cases hfault
    · cases he
      exact ⟨⟨stop, rfl⟩, leftParens pending, (leftParens_of_settle hsettle).symm⟩
    · cases he

end Engine

/-! ### Parentheses of a text -/

namespace Token

def isParenthesis : Token → Bool
  | .leftParen | .rightParen => true
  | _ => false

theorem openAfter_filter (n : Nat) (tokens : List Token) :
    openAfter n (tokens.filter isParenthesis) = openAfter n tokens := by
  induction tokens generalizing n with
  | nil => rfl
  | cons token tokens ih =>
    have hcons : ∀ n, openAfter n (token :: tokens.filter isParenthesis) =
        openAfter n (token :: tokens) := fun n => by
      rw [openAfter_cons, openAfter_cons]
      simp only [ih]
    cases token with
    | leftParen => exact hcons n
    | rightParen => exact hcons n
    | _ => exact ih n

theorem parentheses_gap {gap : List Char} (h : gap.all isGap = true) : parentheses gap = [] := by
  refine parentheses_of_forall fun c hc => ?_
  have hgap : isGap c = true := List.all_eq_true.mp h c hc
  constructor <;> rintro rfl <;> revert hgap <;> decide

/-- The parentheses in a word are those of its token. -/
theorem parentheses_of_spells {word : List Char} {token : Token} (h : token.Spells word) :
    parentheses word = [token].filter isParenthesis := by
  by_cases hnum : token.IsNumber
  · cases token with
    | number x =>
      refine parentheses_of_forall fun c hc => ?_
      have hnumeral : isNumeral c = true := List.all_eq_true.mp h.1 c hc
      constructor <;> rintro rfl <;> revert hnumeral <;> decide
    | _ => cases hnum
  · have hall : ∀ entry ∈ lexicon, parentheses entry.1 = [entry.2].filter isParenthesis := by decide
    exact hall _ (mem_lexicon_of_spells h hnum)

end Token

section Texts
variable {start : Nat} {text : List Char} {lexed : Lexed}

theorem parentheses_piece (piece : Piece) :
    parentheses piece.text = [piece.token].filter Token.isParenthesis := by
  rw [Piece.text, parentheses_append, Token.parentheses_gap piece.all_isGap, List.nil_append]
  exact Token.parentheses_of_spells piece.spells

theorem Reads.parentheses_eq (h : Reads start text lexed) (hcomplete : lexed.Complete) :
    parentheses text = lexed.tokens.filter Token.isParenthesis := by
  induction h with
  | complete hgap => exact Token.parentheses_gap hgap
  | malformed | invalid => obtain ⟨_, hstop⟩ := hcomplete; cases hstop
  | @token start piece rest lexed hrest hreads ih =>
    rw [parentheses_append, parentheses_piece, ih hcomplete, ← List.filter_append]
    rfl

/-- A text is divided at a lexeme, and so are its parentheses. -/
theorem Reads.exists_split (h : Reads start text lexed) {front rest : List Lexeme} {l : Lexeme}
    (hlexemes : lexed.lexemes = front ++ l :: rest) :
    ∃ before word after, text = before ++ word ++ after ∧ l.start = start + width before ∧
      l.token.Spells word ∧
      parentheses before = (front.map Lexeme.token).filter Token.isParenthesis ∧
      (lexed.Complete →
        parentheses after = (rest.map Lexeme.token).filter Token.isParenthesis) := by
  induction h generalizing front with
  | complete | malformed | invalid => simp at hlexemes
  | @token start piece after lexed hrest hreads ih =>
    cases front with
    | nil =>
      cases hlexemes
      exact ⟨piece.gap, piece.word, after, by simp [Piece.text], rfl, piece.spells,
        Token.parentheses_gap piece.all_isGap, hreads.parentheses_eq⟩
    | cons first front =>
      obtain ⟨rfl, htail⟩ := List.cons.inj hlexemes
      obtain ⟨before, word, rest, rfl, hstart, hspells, hbefore, hafter⟩ := ih htail
      refine ⟨piece.text ++ before, word, rest, by simp, ?_, hspells, ?_, hafter⟩
      · rw [hstart, width_append, Nat.add_assoc]
      · rw [parentheses_append, parentheses_piece, hbefore, ← List.filter_append]
        rfl

end Texts

/-! ### Sources -/

variable {source : String}

theorem exists_source_split {front rest : List Lexeme} {l : Lexeme}
    (hlexemes : (lex source).lexemes = front ++ l :: rest) :
    ∃ before word after, source.toList = before ++ word ++ after ∧ l.start = width before ∧
      l.token.Spells word ∧
      (∀ n, Token.openAfter n (parentheses before) =
        Token.openAfter n (front.map Lexeme.token)) ∧
      ((lex source).Complete → ∀ n, Token.openAfter n (parentheses after) =
        Token.openAfter n (rest.map Lexeme.token)) := by
  obtain ⟨before, word, after, htext, hstart, hspells, hbefore, hafter⟩ :=
    (reads_lexFrom source.toList 0).exists_split hlexemes
  refine ⟨before, word, after, htext, by rw [hstart, Nat.zero_add], hspells, fun n => ?_,
    fun hcomplete n => ?_⟩
  · rw [hbefore, Token.openAfter_filter]
  · rw [hafter hcomplete, Token.openAfter_filter]

/-- A text with an unbalanced parenthesis is divided there, and what stands before or behind
is paired. -/
theorem cases_of_unbalanced {p : Nat}
    (h : evaluate source = .error (.located .unbalancedParenthesis p)) :
    ∃ before after, p = before.length ∧
      ((source.toList = before ++ ')' :: after ∧ Paired before) ∨
        (source.toList = before ++ '(' :: after ∧
          (∃ n, Token.openAfter 0 (parentheses before) = some n) ∧ Paired after)) := by
  obtain ⟨byte, hbyte, rfl⟩ := mapPosition_eq_located_iff.mp h
  rcases Engine.evaluate_error_cases hbyte with
    ⟨front, l, rest, engine, hlexemes, hfeed, hfails⟩ | ⟨engine, hfeed, hfails⟩
  · -- Nothing is open where a right parenthesis is met.
    obtain ⟨htoken, rfl, hopen⟩ := Engine.unbalanced_of_step hfails
    have hnest := Engine.openAfter_of_feed hfeed
    rw [Engine.opened_eq_length engine.pending, hopen] at hnest
    obtain ⟨before, word, after, htext, hbyte, hspells, hbefore, -⟩ := exists_source_split hlexemes
    rw [htoken] at hspells
    rw [Token.eq_of_spells_symbol hspells rfl, List.append_assoc] at htext
    refine ⟨before, after, by rw [hbyte, htext, charOffset_width], .inl ⟨htext, paired_iff.mpr ?_⟩⟩
    rw [Token.Balanced, hbefore]
    exact hnest
  · -- The latest of those that are open is met first at the end.
    obtain ⟨⟨stop, hending⟩, places, hopen⟩ := Engine.unbalanced_of_finish hfails
    have hstart : Unclosed [] (Engine.leftParens Engine.start.pending) := .balanced rfl
    have hunclosed := Engine.unclosed_of_feed hstart hfeed
    rw [hopen, List.nil_append] at hunclosed
    generalize hall : (lex source).lexemes = lexemes at hunclosed
    cases hunclosed with
    | @leftParen front rest l _ hfront htoken hrest =>
      obtain ⟨before, word, after, htext, hbyte, hspells, hbefore, hafter⟩ :=
        exists_source_split hall
      rw [htoken] at hspells
      rw [Token.eq_of_spells_symbol hspells rfl, List.append_assoc] at htext
      refine ⟨before, after, by rw [hbyte, htext, charOffset_width], .inr ⟨htext, ?_, ?_⟩⟩
      · exact ⟨places.length, by rw [hbefore, hfront.openAfter_eq]⟩
      · rw [paired_iff, Token.Balanced, hafter ⟨stop, hending⟩]
        exact hrest

/-- The parentheses of a text with a value are paired. -/
theorem paired_of_evaluate {v : Float} (h : evaluate source = .ok v) : Paired source.toList := by
  obtain ⟨hcomplete, hvalue⟩ := evaluate_eq_ok_iff_value.mp h
  rw [paired_iff, (reads_lexFrom source.toList 0).parentheses_eq hcomplete, Token.Balanced,
    Token.openAfter_filter]
  exact Engine.balanced_of_value hvalue

/-- **An unbalanced parenthesis is reported where it stands.** A right one is the first that
closes more than has been opened. A left one is the last without a partner, in a text where
no right one is too many. So there is no such error where all parentheses are paired, and
where they are not there is no value. -/
theorem evaluate_unbalanced (source : String) :
    (∀ before after, source.toList = before ++ ')' :: after →
      evaluate source = .error (.located .unbalancedParenthesis before.length) →
        Exceeds before ∧ ∀ front rest, before = front ++ ')' :: rest → ¬ Exceeds front) ∧
    (∀ before after, source.toList = before ++ '(' :: after →
      evaluate source = .error (.located .unbalancedParenthesis before.length) →
        (∀ front rest, source.toList = front ++ ')' :: rest → ¬ Exceeds front) ∧
          ¬ Closed after ∧ ∀ front rest, after = front ++ '(' :: rest → Closed rest) ∧
    (Paired source.toList → ∀ p, evaluate source ≠ .error (.located .unbalancedParenthesis p)) ∧
    (¬ Paired source.toList → ∀ v, evaluate source ≠ .ok v) := by
  refine ⟨fun before after htext h => ?_, fun before after htext h => ?_, fun hpaired p h => ?_,
    fun hpaired v h => hpaired (paired_of_evaluate h)⟩
  · obtain ⟨before', after', hlength, hcases⟩ := cases_of_unbalanced h
    rw [htext] at hcases
    rcases hcases with ⟨hsame, hpaired⟩ | ⟨hsame, -⟩
    · obtain ⟨rfl, -⟩ := List.append_inj hsame hlength
      exact ⟨hpaired.exceeds, fun front rest hfront => hpaired.not_exceeds hfront⟩
    · cases (List.append_inj hsame hlength).2
  · obtain ⟨before', after', hlength, hcases⟩ := cases_of_unbalanced h
    rw [htext] at hcases
    rcases hcases with ⟨hsame, -⟩ | ⟨hsame, ⟨n, hopen⟩, hpaired⟩
    · cases (List.append_inj hsame hlength).2
    · obtain ⟨rfl, hafter⟩ := List.append_inj hsame hlength
      cases hafter
      have hwhole : Token.openAfter 0 (parentheses source.toList) = some (n + 1) := by
        rw [htext, parentheses_append, Token.openAfter_append, hopen]
        exact (paired_iff.mp hpaired).openAfter_eq (n + 1)
      exact ⟨fun front rest hfront => not_exceeds hwhole hfront, hpaired.not_closed,
        fun front rest hrest => hpaired.closed hrest⟩
  · obtain ⟨before, after, -, ⟨htext, hbefore⟩ | ⟨htext, -, hafter⟩⟩ := cases_of_unbalanced h
    · exact hpaired.not_exceeds htext hbefore.exceeds
    · exact hafter.not_closed (hpaired.closed htext)

/-- A right parenthesis behind a glyph of three bytes, and a left one with a closed one behind
it. Operands need not be in order for the parentheses to be. -/
theorem evaluate_unbalanced_nested :
    evaluate "(√4)+1)/0)" = .error (.located .unbalancedParenthesis 6) ∧
      Exceeds ['(', '√', '4', ')', '+', '1'] ∧
      evaluate "√4+((1-(2))*3" = .error (.located .unbalancedParenthesis 3) ∧
      Closed ['1', '-', '(', '2', ')', ')', '*', '3'] ∧
      Paired "(1 2(+))/0".toList ∧
      (∀ p, evaluate "(1 2(+))/0" ≠ .error (.located .unbalancedParenthesis p)) ∧
      ¬ Paired ")1(".toList ∧ ∀ v, evaluate ")1(" ≠ .ok v := by
  have hright : evaluate "(√4)+1)/0)" = .error (.located .unbalancedParenthesis 6) := by
    decide +kernel
  have hleft : evaluate "√4+((1-(2))*3" = .error (.located .unbalancedParenthesis 3) := by
    decide +kernel
  have hpaired : Paired "(1 2(+))/0".toList := by decide +kernel
  have hunpaired : ¬ Paired ")1(".toList := by decide +kernel
  obtain ⟨hfirst, -, -, -⟩ := evaluate_unbalanced "(√4)+1)/0)"
  obtain ⟨-, hlast, -, -⟩ := evaluate_unbalanced "√4+((1-(2))*3"
  obtain ⟨-, -, hnone, -⟩ := evaluate_unbalanced "(1 2(+))/0"
  obtain ⟨-, -, -, hno⟩ := evaluate_unbalanced ")1("
  obtain ⟨hexceeds, -⟩ := hfirst ['(', '√', '4', ')', '+', '1'] ['/', '0', ')'] rfl hright
  obtain ⟨-, -, hclosed⟩ :=
    hlast ['√', '4', '+'] ['(', '1', '-', '(', '2', ')', ')', '*', '3'] rfl hleft
  exact ⟨hright, hexceeds, hleft, hclosed [] _ rfl, hpaired, hnone hpaired, hunpaired,
    hno hunpaired⟩

end Calculator
