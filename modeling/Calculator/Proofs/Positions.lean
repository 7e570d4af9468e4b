import Calculator.Proofs.Blame
import Calculator.Proofs.Munching

/-! What stands where an error is placed.

The place of an error is a number of characters, found from a number of bytes. The
bytes always end where a character does, and the text from there on shows what the
error is about (`exists_shows_of_evaluate`). -/
namespace Calculator
open Decimal.Literal (isNumeral value?)

/-! ### What a text starts with -/

namespace Token

/-- One of the words of the token comes next in the text. -/
def Starts (token : Token) (text : List Char) : Prop :=
  ∃ word, token.Spells word ∧ word <+: text

/-- The character that is the only word of a token. -/
def symbol? : Token → Option Char
  | .operator op => some op.symbol
  | .leftParen => some '('
  | .rightParen => some ')'
  | _ => none

theorem eq_of_spells_symbol {token : Token} {c : Char} {word : List Char} (h : token.Spells word)
    (hc : token.symbol? = some c) : word = [c] := by
  have hnum : ¬ token.IsNumber := by
    cases token with
    | number x => cases hc
    | _ => exact id
  have hall : ∀ entry ∈ lexicon, entry.2.symbol?.all (fun c => entry.1 == [c]) = true := by decide
  simpa [hc] using hall _ (mem_lexicon_of_spells h hnum)

theorem head?_of_starts {token : Token} {c : Char} {text : List Char} (h : token.Starts text)
    (hc : token.symbol? = some c) : text.head? = some c := by
  obtain ⟨word, hspells, rest, rfl⟩ := h
  rw [eq_of_spells_symbol hspells hc]
  rfl

/-- Where there is no digit, no point and no word of the lexicon, no token starts. -/
theorem not_starts {c : Char} {text : List Char} (hc : isNumeral c = false)
    (hword : ∀ entry ∈ lexicon, ¬ entry.1 <+: c :: text) (token : Token) :
    ¬ token.Starts (c :: text) := by
  rintro ⟨word, hspells, hprefix⟩
  by_cases hnum : token.IsNumber
  · obtain ⟨d, run, rfl, hd⟩ := exists_head_of_spells hspells hnum
    obtain ⟨rest, hrest⟩ := hprefix
    cases hrest
    rw [hc] at hd
    cases hd
  · exact hword _ (mem_lexicon_of_spells hspells hnum) hprefix

end Token

/-! ### What a fault is shown by -/

/-- A source divided in two, where the second part starts with what the fault is about. -/
def Fault.Shows (source : String) (before after : List Char) : Fault → Prop
  | .lexical (.invalidCharacter c) =>
    after.head? = some c ∧ isGap c = false ∧ ∀ token : Token, ¬ token.Starts after
  | .lexical (.malformedNumber literal) =>
    ∃ run rest, literal = String.ofList run ∧ run ≠ [] ∧ after = run ++ rest ∧
      run.all isNumeral = true ∧ Token.Breaks before.reverse ∧ Token.Breaks rest ∧
      value? run = none
  | .missingNumber =>
    (after = [] ∧ ∃ f, (lex source).tokens.getLast? = some (.function f)) ∨
      ∃ i l next f, (lex source).lexemes[i]? = some l ∧ (lex source).lexemes[i + 1]? = some next ∧
        l.token = .function f ∧ Gap source.toList l.stop next.start ∧
        next.start = width before ∧ ¬ next.token.IsNumber ∧ next.token.Starts after
  | .unbalancedParenthesis => after.head? = some '(' ∨ after.head? = some ')'
  | .divisionByZero => after.head? = some '/'
  | .undefinedAt f _ => (Token.function f).Starts after
  | .notFinite =>
    (∃ op, (Token.operator op).Starts after) ∨ ∃ f, (Token.function f).Starts after

section Source
variable {source : String}

/-- A lexeme starts where a character does, and with a word of its token. -/
theorem exists_starts_of_mem {l : Lexeme} (h : l ∈ (lex source).lexemes) :
    ∃ before after, source.toList = before ++ after ∧ l.start = width before ∧
      l.token.Starts after := by
  obtain ⟨before, word, after, htext, hstart, -, hspells, -⟩ := standsIn_lex source l h
  rw [List.append_assoc] at htext
  exact ⟨before, word ++ after, htext, hstart, word, hspells, List.prefix_append _ _⟩

/-- So does what cannot be cut. -/
theorem exists_shows_of_ending {cause : LexicalFault} {i : Nat}
    (h : (lex source).ending = .fault cause i) :
    ∃ before after, source.toList = before ++ after ∧ i = width before ∧
      (Fault.lexical cause).Shows source before after := by
  have hreached := reachedIn_lex source
  rw [h] at hreached
  obtain ⟨before, c, after, htext, hi, hc, hcause⟩ := hreached
  refine ⟨before, c :: after, htext, hi, ?_⟩
  rcases hcause with ⟨-, run, rest, rfl, hrun, hleft, hright, hvalue, rfl⟩ | ⟨hnum, hword, rfl⟩
  · exact ⟨c :: run, rest, rfl, List.cons_ne_nil _ _, rfl, hrun, hleft, hright, hvalue⟩
  · exact ⟨rfl, hc, Token.not_starts hnum hword⟩

theorem exists_shows_of_blames {fault : Fault} {i : Nat} (h : (lex source).Blames fault i) :
    ∃ before after, source.toList = before ++ after ∧ i = width before ∧
      fault.Shows source before after := by
  cases h with
  | uncut hending => exact exists_shows_of_ending hending
  | @unfollowed front l f stop hlexemes htoken hending =>
    have hstop : i = width source.toList := by
      simpa using stop_of_complete hending
    refine ⟨source.toList, [], (List.append_nil _).symm, hstop, .inl ⟨rfl, f, ?_⟩⟩
    rw [Lexed.tokens, hlexemes, List.map_append, List.map_singleton, htoken, List.getLast?_concat]
  | @misapplied front rear l next f hlexemes htoken hnext =>
    have hmem : next ∈ (lex source).lexemes := by simp [hlexemes]
    obtain ⟨before, after, htext, hstart, hstarts⟩ := exists_starts_of_mem hmem
    have hgapped := gapped_lex source
    rw [hlexemes] at hgapped
    exact ⟨before, after, htext, hstart, .inr ⟨front.length, l, next, f, by simp [hlexemes],
      by simp [hlexemes], htoken, hgapped.gap_between, hstart, hnext, hstarts⟩⟩
  | @parenthesis l hmem htoken =>
    obtain ⟨before, after, htext, hstart, hstarts⟩ := exists_starts_of_mem hmem
    refine ⟨before, after, htext, hstart, ?_⟩
    rcases htoken with htoken | htoken
    · exact .inl (Token.head?_of_starts hstarts (by rw [htoken]; rfl))
    · exact .inr (Token.head?_of_starts hstarts (by rw [htoken]; rfl))
  | @operator l op a b fault hmem htoken hfault =>
    obtain ⟨before, after, htext, hstart, hstarts⟩ := exists_starts_of_mem hmem
    rw [htoken] at hstarts
    refine ⟨before, after, htext, hstart, ?_⟩
    rcases op.fault_cases hfault with rfl | ⟨rfl, rfl⟩
    · exact .inl ⟨op, hstarts⟩
    · exact Token.head?_of_starts hstarts rfl
  | @function front rear l next f x fault hlexemes htoken hnext hfault =>
    have hmem : l ∈ (lex source).lexemes := by simp [hlexemes]
    obtain ⟨before, after, htext, hstart, hstarts⟩ := exists_starts_of_mem hmem
    rw [htoken] at hstarts
    refine ⟨before, after, htext, hstart, ?_⟩
    rcases f.fault_cases hfault with rfl | rfl
    · exact .inr ⟨f, hstarts⟩
    · exact hstarts

/-- **Every error is placed, in characters, at what it is about.** The bytes that the engine
counts end where a character does, and the text from there on shows the fault. -/
theorem exists_shows_of_evaluate {fault : Fault} {p : Nat}
    (h : evaluate source = .error (.located fault p)) :
    ∃ before after, source.toList = before ++ after ∧ p = before.length ∧
      Engine.evaluate (lex source) = .error (.located fault (width before)) ∧
      fault.Shows source before after := by
  obtain ⟨byte, hbyte, rfl⟩ := mapPosition_eq_located_iff.mp h
  obtain ⟨before, after, htext, rfl, hshows⟩ :=
    exists_shows_of_blames (Engine.blames_of_evaluate hbyte)
  exact ⟨before, after, htext, by rw [htext, charOffset_width], hbyte, hshows⟩

end Source

/-- Four characters of eight bytes stand before the glyph that lacks a number here. -/
theorem exists_shows_glyph :
    evaluate "√9+√√4" = .error (.located .missingNumber 4) ∧
      ∃ before after, "√9+√√4".toList = before ++ after ∧ 4 = before.length ∧
        Engine.evaluate (lex "√9+√√4") = .error (.located .missingNumber (width before)) ∧
        Fault.missingNumber.Shows "√9+√√4" before after := by
  have h : evaluate "√9+√√4" = .error (.located .missingNumber 4) := by decide +kernel
  exact ⟨h, exists_shows_of_evaluate h⟩

end Calculator
