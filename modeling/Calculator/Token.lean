import Calculator.Decimal.Literal
import Calculator.Fault

/-! Tokens and their spellings.

A number is spelled by a maximal run of digits and points; every other token is a
word of the `lexicon`. `cut` takes the first token off a text. No word of the
lexicon begins another and none begins like a number, so there is never a choice:
what `cut` takes and what it leaves make up the text (`cut_eq_ok`), and if it
takes nothing the text starts with no token at all. -/
namespace Calculator

inductive Token where
  | number (value : Float)
  | operator (op : Operator)
  | function (f : UnaryFunction)
  | leftParen
  | rightParen
  deriving DecidableEq

namespace Token

/-- The spellings of all tokens but numbers. The square root has two. -/
def lexicon : List (List Char × Token) :=
  [(['+'], .operator .add),
   (['-'], .operator .sub),
   (['*'], .operator .mul),
   (['/'], .operator .div),
   (['('], .leftParen),
   ([')'], .rightParen),
   (['s', 'i', 'n'], .function .sin),
   (['c', 'o', 's'], .function .cos),
   (['t', 'a', 'n'], .function .tan),
   (['l', 'o', 'g'], .function .log),
   (['s', 'q', 'r', 't'], .function .sqrt),
   (['√'], .function .sqrt)]

/-! ### The first token of a text -/

/-- A token, its spelling, and the text after it. -/
structure Cut where
  token : Token
  spelling : List Char
  rest : List Char

/-- What follows a word at the front of a text. -/
def after? : List Char → List Char → Option (List Char)
  | [], text => some text
  | c :: word, d :: text => if c = d then after? word text else none
  | _ :: _, [] => none

/-- The word of the lexicon that a text starts with. -/
def word? (text : List Char) : Option Cut :=
  lexicon.findSome? fun entry =>
    (after? entry.1 text).map fun rest => ⟨entry.2, entry.1, rest⟩

/-- The first token of a text that starts with `c`. -/
def cut (c : Char) (text : List Char) : Except LexicalFault Cut :=
  if Decimal.Literal.isNumeral c then
    let run := c :: text.takeWhile Decimal.Literal.isNumeral
    match Decimal.Literal.value? run with
    | some value => .ok ⟨.number value, run, text.dropWhile Decimal.Literal.isNumeral⟩
    | none => .error (.malformedNumber (String.ofList run))
  else
    match word? (c :: text) with
    | some cut => .ok cut
    | none => .error (.invalidCharacter c)

theorem after?_eq_some {word text rest : List Char} (h : after? word text = some rest) :
    text = word ++ rest := by
  induction word generalizing text with
  | nil => cases h; rfl
  | cons c word ih =>
    cases text with
    | nil => cases h
    | cons d text =>
      simp only [after?] at h
      split at h
      · next hcd => rw [hcd, ih h, List.cons_append]
      · cases h

theorem word?_eq_some {text : List Char} {t : Cut} (h : word? text = some t) :
    (t.spelling, t.token) ∈ lexicon ∧ text = t.spelling ++ t.rest := by
  obtain ⟨entry, hmem, hword⟩ := List.exists_of_findSome?_eq_some h
  obtain ⟨rest, hrest, rfl⟩ := Option.map_eq_some_iff.mp hword
  exact ⟨hmem, after?_eq_some hrest⟩

theorem lexicon_ne_nil {entry : List Char × Token} (h : entry ∈ lexicon) : entry.1 ≠ [] := by
  revert entry
  decide

/-- A cut divides the text, and takes something. -/
theorem cut_eq_ok {c : Char} {text : List Char} {t : Cut} (h : cut c text = .ok t) :
    c :: text = t.spelling ++ t.rest ∧ t.spelling ≠ [] := by
  unfold cut at h
  split at h
  · dsimp only at h
    split at h
    · cases h
      simp
    · cases h
  · split at h
    · next t' hword =>
      cases h
      obtain ⟨hmem, htext⟩ := word?_eq_some hword
      exact ⟨htext, lexicon_ne_nil hmem⟩
    · cases h

theorem length_rest_lt {c : Char} {text : List Char} {t : Cut} (h : cut c text = .ok t) :
    t.rest.length < (c :: text).length := by
  obtain ⟨htext, hne⟩ := cut_eq_ok h
  have := List.length_pos_iff.mpr hne
  rw [htext, List.length_append]
  omega

end Calculator.Token
