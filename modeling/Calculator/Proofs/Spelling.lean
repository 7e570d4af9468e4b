import Calculator.Proofs.Lexing
import Calculator.Proofs.Places

/-! Tokens written out.

A `Layout` is a text made from tokens: each is spelled by one of its words behind a
gap of any length, and there may be a gap at the end. Only between two numbers does
a gap have to be there (`Separate`). Reading the text gives back the tokens, each at
the place it was put (`lex_text`). -/
namespace Calculator
open Decimal.Literal (isNumeral value?)

/-! ### Words -/

namespace Token

/-- A word spells a token: a number is spelled by any run of digits and points that has
its value, every other token by its words in the lexicon. -/
def Spells (word : List Char) : Token → Prop
  | .number x => word.all isNumeral = true ∧ value? word = some x
  | token => (word, token) ∈ lexicon

instance (word : List Char) (token : Token) : Decidable (token.Spells word) :=
  match token with
  | .number _ => inferInstanceAs (Decidable (_ ∧ _))
  | .operator _ | .function _ | .leftParen | .rightParen => inferInstanceAs (Decidable (_ ∈ _))

def IsNumber : Token → Prop
  | .number _ => True
  | _ => False

instance (token : Token) : Decidable token.IsNumber :=
  match token with
  | .number _ => isTrue trivial
  | .operator _ | .function _ | .leftParen | .rightParen => isFalse id

/-- The text does not start with a digit or a point. -/
def Breaks (text : List Char) : Prop := ∀ c ∈ text.head?, isNumeral c = false

theorem isNumeral_of_isGap {c : Char} (h : isGap c = true) : isNumeral c = false := by
  have hmem : c ∈ [' ', '\t', '\r', '\n', '\x0c'] := List.contains_iff_mem.mp h
  simp only [List.mem_cons, List.not_mem_nil, or_false] at hmem
  rcases hmem with rfl | rfl | rfl | rfl | rfl <;> decide

theorem isGap_of_isNumeral {c : Char} (h : isNumeral c = true) : isGap c = false := by
  cases hgap : isGap c with
  | false => rfl
  | true => rw [isNumeral_of_isGap hgap] at h; cases h

/-- Words of the lexicon begin neither like a gap nor like a number. -/
theorem lexicon_head {c : Char} {word : List Char} {token : Token}
    (h : (c :: word, token) ∈ lexicon) : isGap c = false ∧ isNumeral c = false := by
  have hall : ∀ entry ∈ lexicon, entry.1.head?.any (fun c => isGap c || isNumeral c) = false := by
    decide
  simpa using hall _ h

theorem mem_lexicon_of_spells {word : List Char} {token : Token} (h : token.Spells word)
    (hnum : ¬ token.IsNumber) : (word, token) ∈ lexicon := by
  cases token with
  | number x => exact absurd trivial hnum
  | _ => exact h

theorem ne_nil_of_spells {word : List Char} {token : Token} (h : token.Spells word) : word ≠ [] := by
  by_cases hnum : token.IsNumber
  · cases token with
    | number x =>
      rintro rfl
      cases h.2
    | _ => cases hnum
  · exact lexicon_ne_nil (mem_lexicon_of_spells h hnum)

/-- A run of digits and points is taken whole, and no more than it. -/
theorem takeWhile_run {run rest : List Char} (hrun : run.all isNumeral = true)
    (hrest : Breaks rest) : (run ++ rest).takeWhile isNumeral = run := by
  rw [List.takeWhile_append_of_pos (List.all_eq_true.mp hrun)]
  cases rest with
  | nil => simp
  | cons c rest => simp [hrest c rfl]

theorem dropWhile_run {run rest : List Char} (hrun : run.all isNumeral = true)
    (hrest : Breaks rest) : (run ++ rest).dropWhile isNumeral = rest := by
  rw [List.dropWhile_append_of_pos (List.all_eq_true.mp hrun)]
  cases rest with
  | nil => simp
  | cons c rest => simp [hrest c rfl]

/-- A spelled token is cut off as it was spelled, unless it is a number and the rest goes
on with it. -/
theorem cut_of_spells {c : Char} {word rest : List Char} {token : Token}
    (h : token.Spells (c :: word)) (hrest : token.IsNumber → Breaks rest) :
    isGap c = false ∧ cut c (word ++ rest) = .ok ⟨token, c :: word, rest⟩ := by
  by_cases hnum : token.IsNumber
  · cases token with
    | number x =>
      obtain ⟨hall, hvalue⟩ := h
      rw [List.all_cons, Bool.and_eq_true] at hall
      refine ⟨isGap_of_isNumeral hall.1, ?_⟩
      unfold cut
      rw [if_pos hall.1]
      dsimp only
      rw [takeWhile_run hall.2 (hrest trivial), hvalue, dropWhile_run hall.2 (hrest trivial)]
    | _ => cases hnum
  · have hmem := mem_lexicon_of_spells h hnum
    obtain ⟨hgap, hc⟩ := lexicon_head hmem
    refine ⟨hgap, ?_⟩
    unfold cut
    rw [if_neg (by simp [hc]), ← List.cons_append, word?_append hmem]

end Token

/-! ### Layouts -/

/-- A spelled token and the gap before it. -/
structure Piece where
  gap : List Char
  token : Token
  word : List Char
  all_isGap : gap.all isGap = true
  spells : token.Spells word

def Piece.text (piece : Piece) : List Char := piece.gap ++ piece.word

/-- Pieces in a row and a gap at the end. -/
structure Layout where
  pieces : List Piece
  gap : List Char
  all_isGap : gap.all isGap = true

namespace Layout

def tokens (layout : Layout) : List Token := layout.pieces.map Piece.token

/-- The text of pieces with `rest` after it. -/
def spell (rest : List Char) : List Piece → List Char
  | [] => rest
  | piece :: pieces => piece.text ++ spell rest pieces

def text (layout : Layout) : String := String.ofList (spell layout.gap layout.pieces)

/-- The text up to token `i`, counted from zero, and up to the end if there is none. -/
def before (rest : List Char) : List Piece → Nat → List Char
  | [], _ => rest
  | piece :: _, 0 => piece.gap
  | piece :: pieces, i + 1 => piece.text ++ before rest pieces i

/-- Where token `i` stands: the number of characters before it. -/
def place (layout : Layout) (i : Nat) : Nat := (before layout.gap layout.pieces i).length

/-- Numbers are kept apart. Other tokens need no gap between them. -/
def Separate (pieces : List Piece) : Prop :=
  pieces.IsChain fun p q => p.token.IsNumber → q.token.IsNumber → q.gap ≠ []

instance (pieces : List Piece) : Decidable (Separate pieces) :=
  inferInstanceAs (Decidable (List.IsChain _ _))

/-! ### Reading a layout -/

theorem lexFrom_gaps {gap : List Char} (h : gap.all isGap = true) (text : List Char)
    (start : Nat) : lexFrom (gap ++ text) start [] = lexFrom text (start + width gap) [] := by
  induction gap generalizing start with
  | nil => simp [width_nil]
  | cons c gap ih =>
    rw [List.all_cons, Bool.and_eq_true] at h
    rw [List.cons_append, lexFrom_gap _ _ h.1, ih h.2, width_cons, Nat.add_assoc]

theorem lexFrom_piece (piece : Piece) {rest : List Char}
    (hrest : piece.token.IsNumber → Token.Breaks rest) (start : Nat) :
    lexFrom (piece.text ++ rest) start [] =
      (lexFrom rest (start + width piece.text) []).after
        [⟨piece.token, start + width piece.gap, start + width piece.text⟩] := by
  obtain ⟨gap, token, word, hgap, hspells⟩ := piece
  cases word with
  | nil => exact absurd rfl (Token.ne_nil_of_spells hspells)
  | cons c word =>
    obtain ⟨hc, hcut⟩ := Token.cut_of_spells hspells hrest
    show lexFrom ((gap ++ c :: word) ++ rest) start [] = _
    rw [List.append_assoc, lexFrom_gaps hgap, List.cons_append, lexFrom_cut_nil _ hc hcut]
    simp only [Piece.text, width_append, Nat.add_assoc]

/-- The lexemes of pieces from byte `start` on. -/
def lexemes (start : Nat) : List Piece → List Lexeme
  | [] => []
  | piece :: pieces =>
    ⟨piece.token, start + width piece.gap, start + width piece.text⟩ ::
      lexemes (start + width piece.text) pieces

theorem map_token_lexemes (start : Nat) (pieces : List Piece) :
    (lexemes start pieces).map Lexeme.token = pieces.map Piece.token := by
  induction pieces generalizing start with
  | nil => rfl
  | cons piece pieces ih => simp [lexemes, ih]

theorem lexemes_getElem? {start i : Nat} {pieces : List Piece} {l : Lexeme} (rest : List Char)
    (h : (lexemes start pieces)[i]? = some l) : l.start = start + width (before rest pieces i) := by
  induction pieces generalizing start i with
  | nil => cases h
  | cons piece pieces ih =>
    cases i with
    | zero => cases h; rfl
    | succ i =>
      rw [ih h, before, width_append, Nat.add_assoc]

/-- What follows a number in a layout does not go on with it. -/
theorem breaks_spell {gap : List Char} (hgap : gap.all isGap = true) {p : Piece}
    {pieces : List Piece} (h : Separate (p :: pieces)) (hp : p.token.IsNumber) :
    Token.Breaks (spell gap pieces) := by
  intro c hc
  cases pieces with
  | nil =>
    exact Token.isNumeral_of_isGap (List.all_eq_true.mp hgap c (List.mem_of_mem_head? hc))
  | cons q pieces =>
    have hq := (List.isChain_cons_cons.mp h).1 hp
    obtain ⟨_ | ⟨d, qgap⟩, token, word, hqgap, hspells⟩ := q
    · have hnum : ¬ token.IsNumber := fun hnum => hq hnum rfl
      cases word with
      | nil => exact absurd rfl (Token.ne_nil_of_spells hspells)
      | cons d word =>
        cases hc
        exact (Token.lexicon_head (Token.mem_lexicon_of_spells hspells hnum)).2
    · cases hc
      exact Token.isNumeral_of_isGap (List.all_eq_true.mp hqgap c (by simp))

theorem lexFrom_spell {gap : List Char} (hgap : gap.all isGap = true) {pieces : List Piece}
    (h : Separate pieces) (start : Nat) :
    lexFrom (spell gap pieces) start [] =
      ⟨lexemes start pieces, .complete (start + width (spell gap pieces))⟩ := by
  induction pieces generalizing start with
  | nil =>
    have hempty := lexFrom_gaps hgap [] start
    rw [List.append_nil, lexFrom_nil] at hempty
    exact hempty
  | cons piece pieces ih =>
    rw [spell, lexFrom_piece piece (breaks_spell hgap h), ih h.tail]
    simp [Lexed.after, lexemes, width_append, Nat.add_assoc]

/-- **A layout is read as it was written.** -/
theorem lex_text (layout : Layout) (h : Separate layout.pieces) :
    lex layout.text =
      ⟨lexemes 0 layout.pieces, .complete (width (spell layout.gap layout.pieces))⟩ := by
  rw [lex, text, String.toList_ofList, lexFrom_spell layout.all_isGap h, Nat.zero_add]

theorem exists_spell_eq_before (rest : List Char) (pieces : List Piece) (i : Nat) :
    ∃ more, spell rest pieces = before rest pieces i ++ more := by
  induction pieces generalizing i with
  | nil => exact ⟨[], (List.append_nil rest).symm⟩
  | cons piece pieces ih =>
    cases i with
    | zero => exact ⟨piece.word ++ spell rest pieces, by simp [spell, before, Piece.text]⟩
    | succ i =>
      obtain ⟨more, h⟩ := ih i
      exact ⟨more, by rw [spell, before, h, List.append_assoc]⟩

theorem before_length (rest : List Char) (pieces : List Piece) :
    before rest pieces pieces.length = spell rest pieces := by
  induction pieces with
  | nil => rfl
  | cons piece pieces ih => rw [List.length_cons, before, ih, spell]

/-- **A layout has the value of its tokens**, or their first error at the place of the
token it is at. -/
theorem evaluate_text (layout : Layout) (h : Separate layout.pieces) :
    evaluate layout.text =
      (Engine.value layout.tokens).mapError (EvalError.mapPosition layout.place) := by
  have hlex := lex_text layout h
  have htokens : (lex layout.text).tokens = layout.tokens := by
    rw [hlex, Lexed.tokens, map_token_lexemes, tokens]
  have hlength : (lex layout.text).lexemes.length = layout.pieces.length := by
    have := congrArg List.length htokens
    rwa [Lexed.tokens, List.length_map, tokens, List.length_map] at this
  rw [evaluate_eq_value (fun i => width (before layout.gap layout.pieces i))
    (congrArg Lexed.ending hlex), htokens]
  · congr 2
    funext i
    obtain ⟨more, hmore⟩ := exists_spell_eq_before layout.gap layout.pieces i
    rw [text, String.toList_ofList, hmore, charOffset_width, place]
  · intro i l hl
    rw [hlex] at hl
    rw [lexemes_getElem? layout.gap hl, Nat.zero_add]
  · rw [hlength, before_length]

end Layout
end Calculator
