import Calculator.Proofs.Expressions
import Calculator.Proofs.Nesting

/-! Which texts have a value.

Operands and operators need not alternate. What a text must have is an outline: its
parentheses balance and its functions stand before numbers (`exists_outline`). It has
a value if the outline, run from an empty stack, leaves one operand, and that is the
value (`evaluate_eq_ok_iff`). For the outline of a phrase this is the value of the
phrase; but `1 2+` also leaves one. The texts of phrases are those that balance and
alternate (`exists_phrase_iff`). -/
namespace Calculator

/-! ### Growing an outline -/

namespace Outline
variable {level : Nat}

/-- Whatever can be added to a row can be added to an outline: to its last row. -/
theorem exists_extend (o : Outline level) (grow : Outline 3 → Outline 3) (more : List Token)
    (h : ∀ row, (grow row).tokens = row.tokens ++ more) :
    ∃ o' : Outline level, o'.tokens = o.tokens ++ more := by
  induction o with
  | empty => exact ⟨grow .empty, h _⟩
  | number row x _ => exact ⟨grow (.number row x), h _⟩
  | call row f x _ => exact ⟨grow (.call row f x), h _⟩
  | group row inner _ _ => exact ⟨grow (.group row inner), h _⟩
  | term row ih =>
    obtain ⟨row', hrow⟩ := ih
    exact ⟨.term row', hrow⟩
  | expression o ih =>
    obtain ⟨o', ho⟩ := ih
    exact ⟨.expression o', ho⟩
  | binary op left right _ ih =>
    obtain ⟨right', hright⟩ := ih
    exact ⟨.binary op left right', by simp [tokens, hright]⟩

/-- Nothing, on the right of an operator. -/
def blank : (op : Operator) → Outline (op.precedence + 1)
  | .add | .sub => .term .empty
  | .mul | .div => .empty

theorem tokens_blank (op : Operator) : (blank op).tokens = [] := by
  cases op <;> rfl

theorem exists_operator_of_eq {op : Operator} (o : Outline level) (h : level = op.precedence) :
    ∃ o' : Outline level, o'.tokens = o.tokens ++ [.operator op] := by
  subst h
  exact ⟨.binary op o (blank op), by rw [tokens, tokens_blank]⟩

/-- An operator can be added to an outline that it may stand in. What binds as tightly
becomes its left side. -/
theorem exists_operator {op : Operator} (o : Outline level) (h : level ≤ op.precedence) :
    ∃ o' : Outline level, o'.tokens = o.tokens ++ [.operator op] := by
  have hlt := Engine.precedence_lt_three op
  induction o with
  | empty | number | call | group => omega
  | term row ih => exact exists_operator_of_eq _ (by omega)
  | expression o ih =>
    rcases Nat.eq_or_lt_of_le h with heq | hlt
    · exact exists_operator_of_eq _ heq
    · obtain ⟨o', ho⟩ := ih hlt
      exact ⟨.expression o', ho⟩
  | binary op' left right _ ih =>
    rcases Nat.eq_or_lt_of_le h with heq | hlt
    · exact exists_operator_of_eq _ heq
    · obtain ⟨right', hright⟩ := ih hlt
      exact ⟨.binary op' left right', by simp [tokens, hright]⟩

/-! ### The outline of a text -/

/-- The tokens before an open group: what surrounds it, from the inside out. -/
def opening : List (Outline 1) → List Token
  | [] => []
  | o :: outer => opening outer ++ o.tokens ++ [.leftParen]

theorem exists_outline_from (outer : List (Outline 1)) (o : Outline 1) (tokens : List Token)
    (hnest : Token.openAfter outer.length tokens = some 0) (happlied : Token.Applied tokens) :
    ∃ o' : Outline 1, o'.tokens = opening outer ++ o.tokens ++ tokens := by
  -- A function is taken in together with its number, so the tail may be shorter by two.
  induction hlength : tokens.length using Nat.strong_induction_on
    generalizing outer o tokens with
  | _ length ih =>
    subst hlength
    cases tokens with
    | nil =>
      cases outer with
      | nil => exact ⟨o, by simp [opening]⟩
      | cons w outer => cases hnest
    | cons token tokens =>
      have hshort : tokens.length < (token :: tokens).length := Nat.lt_succ_self _
      cases token with
      | number x =>
        obtain ⟨o', ho⟩ := o.exists_extend (.number · x) [.number x] fun _ => rfl
        obtain ⟨whole, h⟩ := ih _ hshort outer o' tokens hnest happlied.tail rfl
        exact ⟨whole, by simp [h, ho]⟩
      | function f =>
        obtain ⟨x, tokens, rfl⟩ := happlied [] f tokens rfl
        obtain ⟨o', ho⟩ := o.exists_extend (.call · f x) [.function f, .number x] fun _ => rfl
        have hshorter := Nat.lt_trans (Nat.lt_succ_self tokens.length) hshort
        obtain ⟨whole, h⟩ := ih _ hshorter outer o' tokens hnest happlied.tail.tail rfl
        exact ⟨whole, by simp [h, ho]⟩
      | operator op =>
        obtain ⟨o', ho⟩ := o.exists_operator (Engine.loosest_le op)
        obtain ⟨whole, h⟩ := ih _ hshort outer o' tokens hnest happlied.tail rfl
        exact ⟨whole, by simp [h, ho]⟩
      | leftParen =>
        obtain ⟨whole, h⟩ := ih _ hshort (o :: outer) (.expression (.term .empty)) tokens hnest
          happlied.tail rfl
        exact ⟨whole, by simp [h, opening, Outline.tokens]⟩
      | rightParen =>
        cases outer with
        | nil => cases hnest
        | cons w outer =>
          obtain ⟨o', ho⟩ := w.exists_extend (.group · o) (.leftParen :: o.tokens ++ [.rightParen])
            fun row => by simp [Outline.tokens]
          obtain ⟨whole, h⟩ := ih _ hshort outer o' tokens hnest happlied.tail rfl
          exact ⟨whole, by simp [h, ho, opening]⟩

end Outline

/-- Tokens have an outline if parentheses and functions are in order. -/
theorem exists_outline {tokens : List Token} (hbalanced : Token.Balanced tokens)
    (happlied : Token.Applied tokens) : ∃ o : Outline 1, o.tokens = tokens := by
  obtain ⟨o, h⟩ := Outline.exists_outline_from [] (.expression (.term .empty)) tokens hbalanced
    happlied
  exact ⟨o, by simpa [Outline.opening, Outline.tokens] using h⟩

/-! ### Values -/

theorem Engine.value_eq_ok_iff {tokens : List Token} {v : Float} :
    Engine.value tokens = .ok v ↔ ∃ o : Outline 1, o.tokens = tokens ∧ o.run 0 [] = .ok [v] := by
  constructor
  · intro h
    obtain ⟨o, rfl⟩ := exists_outline (balanced_of_value h) (applied_of_value h)
    rw [value_outline] at h
    obtain ⟨operands, hrun, h⟩ := bind_eq_ok h
    cases drained_eq_ok_iff.mp h
    exact ⟨o, rfl, hrun⟩
  · rintro ⟨o, rfl, hrun⟩
    rw [value_outline, hrun]
    rfl

/-! ### Phrases among outlines -/

namespace Outline
variable {level : Nat}

/-- An outline closes what it opens. -/
theorem openAfter_append (o : Outline level) (n : Nat) (more : List Token) :
    Token.openAfter n (o.tokens ++ more) = Token.openAfter n more := by
  induction o generalizing n more with
  | empty => rfl
  | number row x ih => rw [tokens, List.append_assoc, ih]; rfl
  | call row f x ih => rw [tokens, List.append_assoc, ih]; rfl
  | group row inner ih ihInner =>
    rw [tokens, List.append_assoc, List.append_assoc, ih]
    exact ihInner (n + 1) (.rightParen :: more)
  | term row ih => exact ih n more
  | expression o ih => exact ih n more
  | binary op left right ihLeft ihRight =>
    rw [tokens, List.append_assoc, ihLeft]
    exact ihRight n more

/-- A row ends like an operand, if it is one at all. -/
theorem exists_last {o : Outline level} (h : level = 3) (hne : o.tokens ≠ []) :
    ∃ first t, o.tokens = first ++ [t] ∧ ∀ s, t.Follows s → s.Closes := by
  cases o with
  | empty => exact absurd rfl hne
  | number row x => exact ⟨row.tokens, .number x, rfl, fun _ => id⟩
  | call row f x => exact ⟨row.tokens ++ [.function f], .number x, by simp [tokens], fun _ => id⟩
  | group row inner =>
    exact ⟨row.tokens ++ .leftParen :: inner.tokens, .rightParen, by simp [tokens], fun _ => id⟩
  | term row => cases h
  | expression o => cases h
  | binary op left right => exact absurd h (Nat.ne_of_lt (Engine.precedence_lt_three op))

/-- So nothing but an operator or a right parenthesis comes next after a row, unless it is
empty. -/
theorem tokens_eq_nil {row : Outline 3} {p s : Token} {rest : List Token}
    (h : (p :: (row.tokens ++ s :: rest)).IsChain Token.Follows) (hs : ¬ s.Closes) :
    row.tokens = [] := by
  by_contra hne
  obtain ⟨first, t, htokens, ht⟩ := exists_last rfl hne
  rw [htokens, List.append_assoc] at h
  have hlast : (t :: s :: rest).IsChain Token.Follows := (List.isChain_cons_split.mp h).2
  exact hs (ht s (List.isChain_cons_cons.mp hlast).1)

/-- If its tokens alternate, the rows of an outline are single operands. -/
theorem exists_phrase (o : Outline level) {p q : Token} (hp : p.Opens) (hq : q.Closes)
    (h : (p :: o.tokens ++ [q]).IsChain Token.Follows) :
    ∃ e : Phrase level, e.tokens = o.tokens := by
  induction o generalizing p q with
  | empty =>
    have hpq : p.Follows q := (List.isChain_cons_cons.mp h).1
    exact absurd hq (hp.follows_iff.mp hpq)
  | number row x _ =>
    rw [tokens, List.cons_append, List.append_assoc] at h
    have hrow := tokens_eq_nil h id
    exact ⟨.number x, by rw [Phrase.tokens, tokens, hrow]; rfl⟩
  | call row f x _ =>
    rw [tokens, List.cons_append, List.append_assoc] at h
    have hrow := tokens_eq_nil h id
    exact ⟨.call f x, by rw [Phrase.tokens, tokens, hrow]; rfl⟩
  | group row inner _ ih =>
    rw [tokens, List.cons_append, List.append_assoc, List.append_assoc] at h
    have hrow := tokens_eq_nil h id
    rw [hrow] at h
    have hinner := (List.isChain_cons_split.mp (List.isChain_cons_cons.mp h).2).1
    obtain ⟨e, he⟩ := ih (p := .leftParen) (q := .rightParen) trivial trivial hinner
    exact ⟨.group e, by rw [Phrase.tokens, tokens, hrow, he]; rfl⟩
  | term row ih =>
    obtain ⟨e, he⟩ := ih hp hq h
    exact ⟨.term e, he⟩
  | expression o ih =>
    obtain ⟨e, he⟩ := ih hp hq h
    exact ⟨.expression e, he⟩
  | binary op left right ihLeft ihRight =>
    rw [tokens, List.cons_append, List.append_assoc] at h
    obtain ⟨hleft, hright⟩ := List.isChain_cons_split.mp h
    obtain ⟨l, hl⟩ := ihLeft hp (q := .operator op) trivial hleft
    obtain ⟨r, hr⟩ := ihRight (p := .operator op) trivial hq hright
    exact ⟨.binary op l r, by rw [Phrase.tokens, tokens, hl, hr]⟩

end Outline

/-- Where tokens alternate, a number follows each function. -/
theorem Token.Alternating.applied {tokens : List Token} (h : Token.Alternating tokens) :
    Token.Applied tokens := by
  rintro before f after rfl
  rw [Alternating, List.cons_append, List.append_assoc, List.cons_append] at h
  have hafter := (List.isChain_cons_split.mp h).2
  cases after with
  | nil =>
    obtain ⟨x, hx⟩ := (List.isChain_cons_cons.mp hafter).1
    cases hx
  | cons t after =>
    obtain ⟨x, rfl⟩ := (List.isChain_cons_cons.mp hafter).1
    exact ⟨x, after, rfl⟩

theorem exists_phrase_iff {tokens : List Token} :
    (∃ e : Phrase 1, e.tokens = tokens) ↔ Token.Balanced tokens ∧ Token.Alternating tokens := by
  constructor
  · rintro ⟨e, rfl⟩
    refine ⟨?_, e.alternating_tokens⟩
    have hbalanced := e.outline.openAfter_append 0 []
    rwa [List.append_nil, e.tokens_outline] at hbalanced
  · rintro ⟨hbalanced, halternating⟩
    obtain ⟨o, rfl⟩ := exists_outline hbalanced halternating.applied
    exact o.exists_phrase (p := .leftParen) (q := .rightParen) trivial trivial halternating

/-! ### Texts -/

/-- **A text has a value if it can be cut and outlined, and its outline leaves one
operand.** It is an expression if its parentheses balance and its operands and operators
alternate. The first is so wherever there is a value; the second is not asked, so of the
texts with a value those that alternate are expressions and the others are not. -/
theorem evaluate_eq_ok_iff (source : String) :
    (∀ v, evaluate source = .ok v ↔ (lex source).Complete ∧
      ∃ o : Outline 1, o.tokens = (lex source).tokens ∧ o.run 0 [] = .ok [v]) ∧
    ((∃ e : Phrase 1, e.tokens = (lex source).tokens) ↔
      Token.Balanced (lex source).tokens ∧ Token.Alternating (lex source).tokens) ∧
    ∀ v, evaluate source = .ok v →
      ((∃ e : Phrase 1, e.tokens = (lex source).tokens) ↔
        Token.Alternating (lex source).tokens) := by
  refine ⟨fun v => ?_, exists_phrase_iff, fun v h => ?_⟩
  · rw [evaluate_eq_ok_iff_value, Engine.value_eq_ok_iff]
  · have hbalanced := Engine.balanced_of_value (evaluate_eq_ok_iff_value.mp h).2
    rw [exists_phrase_iff, and_iff_right hbalanced]

/-- Here the operator comes last, and there is a value. -/
theorem evaluate_operator_last :
    evaluate "1 2+" = .ok 3 ∧ ¬ ∃ e : Phrase 1, e.tokens = (lex "1 2+").tokens := by
  refine ⟨by decide +kernel, ?_⟩
  have htokens : (lex "1 2+").tokens = [.number 1, .number 2, .operator .add] := by
    decide +kernel
  rintro ⟨e, he⟩
  have halternating := e.alternating_tokens
  rw [he, htokens] at halternating
  -- The second number comes next after the first.
  exact (List.isChain_cons_cons.mp (List.isChain_cons_cons.mp halternating).2).1

end Calculator
