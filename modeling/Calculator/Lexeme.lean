import Calculator.Token

/-! A text as tokens in their places.

`lex` cuts a text from left to right into lexemes, tokens with the bytes they
cover, and skips the gaps between them. It ends at the end of the text or at the
first place where no token starts, and says which. -/
namespace Calculator

/-! ### Places -/

/-- The number of bytes that characters take up. -/
def width (text : List Char) : Nat := text.foldl (fun n c => n + c.utf8Size) 0

private theorem foldl_width (text : List Char) (n : Nat) :
    text.foldl (fun n c => n + c.utf8Size) n = n + width text := by
  unfold width
  induction text generalizing n with
  | nil => rfl
  | cons c text ih =>
    rw [List.foldl_cons, List.foldl_cons, ih, ih (0 + c.utf8Size)]
    omega

theorem width_nil : width [] = 0 := rfl

theorem width_cons (c : Char) (text : List Char) : width (c :: text) = c.utf8Size + width text := by
  unfold width
  rw [List.foldl_cons, foldl_width, Nat.zero_add]
  rfl

theorem width_append (a b : List Char) : width (a ++ b) = width a + width b := by
  induction a with
  | nil => simp [width_nil]
  | cons c a ih => rw [List.cons_append, width_cons, width_cons, ih, Nat.add_assoc]

/-- A token and the bytes of the text it covers, from `start` up to `stop`. -/
structure Lexeme where
  token : Token
  start : Nat
  stop : Nat

/-- How a text ended: all of it was read, or no token starts at some byte. -/
inductive Ending where
  | complete (stop : Nat)
  | fault (fault : LexicalFault) (start : Nat)
  deriving DecidableEq

structure Lexed where
  lexemes : List Lexeme
  ending : Ending

/-! ### Cutting a text -/

/-- Space, tab, carriage return, line feed and form feed stand between tokens. -/
def isGap (c : Char) : Bool := [' ', '\t', '\r', '\n', '\x0c'].contains c

/-- Cuts the rest of a text, which starts at byte `start`. The lexemes before it are
`done`, the latest first. -/
def lexFrom (text : List Char) (start : Nat) (done : List Lexeme) : Lexed :=
  match text with
  | [] => ⟨done.reverse, .complete start⟩
  | c :: text =>
    if isGap c then
      lexFrom text (start + c.utf8Size) done
    else
      match _h : Token.cut c text with
      | .ok t =>
        let stop := start + width t.spelling
        lexFrom t.rest stop (⟨t.token, start, stop⟩ :: done)
      | .error fault => ⟨done.reverse, .fault fault start⟩
termination_by text.length
decreasing_by
  · simp
  · exact Token.length_rest_lt _h

def lex (source : String) : Lexed := lexFrom source.toList 0 []

end Calculator
