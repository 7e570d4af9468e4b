import Mathlib
import Calculator.Evaluation

/-! How a text is cut.

Cutting is local. The lexemes so far are only carried along (`lexFrom_done`), where a
text starts only moves its lexemes (`lexFrom_add`), and before a character that no
token goes on with, a text is cut as if nothing followed (`lexFrom_append`). -/
namespace Calculator
open Decimal.Literal (isNumeral)

/-! ### One token at a time -/

section Equations
variable {c : Char} {text : List Char} (start : Nat) (done : List Lexeme)

@[simp]
theorem lexFrom_nil : lexFrom [] start done = ⟨done.reverse, .complete start⟩ := by
  rw [lexFrom]

theorem lexFrom_gap (h : isGap c = true) :
    lexFrom (c :: text) start done = lexFrom text (start + c.utf8Size) done := by
  rw [lexFrom, if_pos h]

theorem lexFrom_cut {t : Token.Cut} (h : isGap c = false) (hcut : Token.cut c text = .ok t) :
    lexFrom (c :: text) start done =
      lexFrom t.rest (start + width t.spelling)
        (⟨t.token, start, start + width t.spelling⟩ :: done) := by
  rw [lexFrom, if_neg (by simp [h])]
  split
  · next t' ht => rw [hcut] at ht; cases ht; rfl
  · next fault hf => rw [hcut] at hf; cases hf

theorem lexFrom_fault {fault : LexicalFault} (h : isGap c = false)
    (hcut : Token.cut c text = .error fault) :
    lexFrom (c :: text) start done = ⟨done.reverse, .fault fault start⟩ := by
  rw [lexFrom, if_neg (by simp [h])]
  split
  · next t ht => rw [hcut] at ht; cases ht
  · next fault' hf => rw [hcut] at hf; cases hf; rfl

end Equations

/-- To show something of every text, show it of the empty one, behind a gap, behind a
token, and where no token starts. -/
theorem cutInduction {motive : List Char → Prop} (nil : motive [])
    (gap : ∀ c text, isGap c = true → motive text → motive (c :: text))
    (cut : ∀ c text t, isGap c = false → Token.cut c text = .ok t → motive t.rest →
      motive (c :: text))
    (fault : ∀ c text fault, isGap c = false → Token.cut c text = .error fault →
      motive (c :: text)) (text : List Char) : motive text := by
  match text with
  | [] => exact nil
  | c :: text =>
    cases hgap : isGap c with
    | true => exact gap c text hgap (cutInduction nil gap cut fault text)
    | false =>
      cases hcut : Token.cut c text with
      | error f => exact fault c text f hgap hcut
      | ok t => exact cut c text t hgap hcut (cutInduction nil gap cut fault t.rest)
termination_by text.length
decreasing_by
  · exact Token.length_rest_lt hcut
  · simp

/-! ### What came before -/

/-- A text read after these lexemes. -/
def Lexed.after (done : List Lexeme) (lexed : Lexed) : Lexed := ⟨done ++ lexed.lexemes, lexed.ending⟩

theorem Lexed.after_after (first second : List Lexeme) (lexed : Lexed) :
    (lexed.after second).after first = lexed.after (first ++ second) := by
  simp [Lexed.after]

theorem lexFrom_done (text : List Char) (start : Nat) (done : List Lexeme) :
    lexFrom text start done = (lexFrom text start []).after done.reverse := by
  induction text using cutInduction generalizing start done with
  | nil => simp [Lexed.after]
  | gap c text hgap ih => rw [lexFrom_gap _ _ hgap, lexFrom_gap _ _ hgap, ih]
  | cut c text t hgap hcut ih =>
    rw [lexFrom_cut _ _ hgap hcut, lexFrom_cut _ _ hgap hcut, ih, ih _ [_]]
    simp [Lexed.after]
  | fault c text fault hgap hcut =>
    rw [lexFrom_fault _ _ hgap hcut, lexFrom_fault _ _ hgap hcut]
    simp [Lexed.after]

theorem lexFrom_cut_nil {c : Char} {text : List Char} {t : Token.Cut} (start : Nat)
    (h : isGap c = false) (hcut : Token.cut c text = .ok t) :
    lexFrom (c :: text) start [] =
      (lexFrom t.rest (start + width t.spelling) []).after
        [⟨t.token, start, start + width t.spelling⟩] := by
  rw [lexFrom_cut _ _ h hcut, lexFrom_done]
  rfl

/-! ### Where it stands -/

/-- A text further on. -/
def Lexed.moveBy (n : Nat) (lexed : Lexed) : Lexed :=
  ⟨lexed.lexemes.map fun l => ⟨l.token, l.start + n, l.stop + n⟩,
    match lexed.ending with
    | .complete stop => .complete (stop + n)
    | .fault cause start => .fault cause (start + n)⟩

theorem lexFrom_add (text : List Char) (start n : Nat) :
    lexFrom text (start + n) [] = (lexFrom text start []).moveBy n := by
  induction text using cutInduction generalizing start with
  | nil => simp [Lexed.moveBy]
  | gap c text hgap ih =>
    rw [lexFrom_gap _ _ hgap, lexFrom_gap _ _ hgap, ← ih]
    congr 1
    omega
  | cut c text t hgap hcut ih =>
    have hstop : start + n + width t.spelling = start + width t.spelling + n := by omega
    rw [lexFrom_cut_nil _ hgap hcut, lexFrom_cut_nil _ hgap hcut, hstop, ih]
    rfl
  | fault c text fault hgap hcut =>
    rw [lexFrom_fault _ _ hgap hcut, lexFrom_fault _ _ hgap hcut]
    rfl

/-- Every token lies within the text. -/
theorem le_of_mem_lexFrom {text : List Char} {start : Nat} {l : Lexeme}
    (h : l ∈ (lexFrom text start []).lexemes) :
    start ≤ l.start ∧ l.start ≤ l.stop ∧ l.stop ≤ start + width text := by
  induction text using cutInduction generalizing start with
  | nil => simp at h
  | gap c text hgap ih =>
    rw [lexFrom_gap _ _ hgap] at h
    have := ih h
    rw [width_cons]
    omega
  | cut c text t hgap hcut ih =>
    rw [lexFrom_cut_nil _ hgap hcut] at h
    have htext : width (c :: text) = width t.spelling + width t.rest := by
      rw [(Token.cut_eq_ok hcut).1, width_append]
    rcases List.mem_cons.mp h with rfl | h
    · dsimp only
      omega
    · have := ih h
      omega
  | fault c text fault hgap hcut =>
    rw [lexFrom_fault _ _ hgap hcut] at h
    simp at h

/-! ### Words

Since no word of the lexicon begins another, the word that a text begins with is known
as soon as it is complete. -/

/-- A word of the lexicon at the front of a text is found, whatever follows it. -/
theorem word?_append {word : List Char} {token : Token} (h : (word, token) ∈ Token.lexicon)
    (rest : List Char) : Token.word? (word ++ rest) = some ⟨token, word, rest⟩ := by
  simp only [Token.lexicon, List.mem_cons, Prod.mk.injEq, List.not_mem_nil, or_false] at h
  rcases h with ⟨rfl, rfl⟩ | ⟨rfl, rfl⟩ | ⟨rfl, rfl⟩ | ⟨rfl, rfl⟩ | ⟨rfl, rfl⟩ | ⟨rfl, rfl⟩ |
    ⟨rfl, rfl⟩ | ⟨rfl, rfl⟩ | ⟨rfl, rfl⟩ | ⟨rfl, rfl⟩ | ⟨rfl, rfl⟩ | ⟨rfl, rfl⟩ <;> rfl

/-! ### What comes after -/

/-- A character that starts a token afresh, whatever token comes before it. -/
def Delimits (c : Char) : Prop :=
  isNumeral c = false ∧ ∀ entry ∈ Token.lexicon, c ∉ entry.1.tail

instance (c : Char) : Decidable (Delimits c) := inferInstanceAs (Decidable (_ ∧ _))

theorem delimits_leftParen : Delimits '(' := by decide

theorem delimits_rightParen : Delimits ')' := by decide

/-- What a text begins with does not depend on what follows a delimiter. -/
theorem word?_append_delimiter {d : Char} (hd : Delimits d) (c : Char) (text more : List Char) :
    Token.word? (c :: text ++ d :: more) =
      (Token.word? (c :: text)).map fun t => ⟨t.token, t.spelling, t.rest ++ d :: more⟩ := by
  cases hshort : Token.word? (c :: text) with
  | some t =>
    obtain ⟨hmem, htext⟩ := Token.word?_eq_some hshort
    rw [htext, List.append_assoc, word?_append hmem]
    rfl
  | none =>
    cases hlong : Token.word? (c :: text ++ d :: more) with
    | none => rfl
    | some t =>
      exfalso
      obtain ⟨hmem, htext⟩ := Token.word?_eq_some hlong
      -- Either the word ends before the delimiter or it holds it, but not in front.
      rcases List.append_eq_append_iff.mp htext with ⟨excess, hword, hexcess⟩ | ⟨rest, hword, _⟩
      · rw [hword] at hmem
        cases excess with
        | nil =>
          rw [List.append_nil] at hmem
          have := word?_append hmem []
          rw [List.append_nil, hshort] at this
          cases this
        | cons d' excess =>
          cases hexcess
          exact hd.2 _ hmem (by simp)
      · rw [hword, word?_append hmem] at hshort
        cases hshort

theorem cut_append_delimiter {d : Char} (hd : Delimits d) (c : Char) (text more : List Char) :
    Token.cut c (text ++ d :: more) =
      (Token.cut c text).map fun t => ⟨t.token, t.spelling, t.rest ++ d :: more⟩ := by
  have htake : (text ++ d :: more).takeWhile isNumeral = text.takeWhile isNumeral := by
    rw [List.takeWhile_append]
    split
    · next h =>
      rw [(List.takeWhile_prefix _).eq_of_length h, List.takeWhile_cons, hd.1]
      simp
    · rfl
  have hdrop : (text ++ d :: more).dropWhile isNumeral = text.dropWhile isNumeral ++ d :: more := by
    rw [List.dropWhile_append]
    split
    · next h => rw [List.dropWhile_cons, hd.1]; simp_all
    · rfl
  unfold Token.cut
  split
  · dsimp only
    rw [htake, hdrop]
    split <;> rfl
  · rw [← List.cons_append, word?_append_delimiter hd]
    cases Token.word? (c :: text) <;> rfl

/-- Goes on with the next text if this one is complete. -/
def Lexed.resume (lexed : Lexed) (next : Nat → Lexed) : Lexed :=
  match lexed.ending with
  | .complete stop => (next stop).after lexed.lexemes
  | .fault _ _ => lexed

theorem Lexed.resume_after (done : List Lexeme) (lexed : Lexed) (next : Nat → Lexed) :
    (lexed.after done).resume next = (lexed.resume next).after done := by
  obtain ⟨lexemes, ending⟩ := lexed
  cases ending with
  | complete stop => simp [Lexed.after, Lexed.resume]
  | fault cause start => rfl

theorem Lexed.resume_resume (lexed : Lexed) (next last : Nat → Lexed) :
    (lexed.resume next).resume last = lexed.resume fun stop => (next stop).resume last := by
  obtain ⟨lexemes, ending⟩ := lexed
  cases ending with
  | complete stop => exact resume_after lexemes (next stop) last
  | fault cause start => rfl

/-- **A text is cut up to a delimiter as if nothing followed**, and after that as if
nothing had come before. -/
theorem lexFrom_append {d : Char} (hd : Delimits d) (text more : List Char) (start : Nat) :
    lexFrom (text ++ d :: more) start [] =
      (lexFrom text start []).resume fun stop => lexFrom (d :: more) stop [] := by
  induction text using cutInduction generalizing start with
  | nil => simp [Lexed.resume, Lexed.after]
  | gap c text hgap ih => rw [List.cons_append, lexFrom_gap _ _ hgap, lexFrom_gap _ _ hgap, ih]
  | cut c text t hgap hcut ih =>
    have hcut' := cut_append_delimiter hd c text more
    rw [hcut] at hcut'
    rw [List.cons_append, lexFrom_cut_nil _ hgap hcut', lexFrom_cut_nil _ hgap hcut, ih,
      Lexed.resume_after]
  | fault c text fault hgap hcut =>
    have hcut' := cut_append_delimiter hd c text more
    rw [hcut] at hcut'
    rw [List.cons_append, lexFrom_fault _ _ hgap hcut', lexFrom_fault _ _ hgap hcut]
    rfl

/-- A text that is read to its end stops at its end. -/
theorem stop_of_complete {text : List Char} {start stop : Nat}
    (h : (lexFrom text start []).ending = .complete stop) : stop = start + width text := by
  induction text using cutInduction generalizing start with
  | nil =>
    rw [lexFrom_nil] at h
    cases h
    rfl
  | gap c text hgap ih =>
    rw [lexFrom_gap _ _ hgap] at h
    rw [ih h, width_cons, Nat.add_assoc]
  | cut c text t hgap hcut ih =>
    rw [lexFrom_cut_nil _ hgap hcut] at h
    rw [ih h, (Token.cut_eq_ok hcut).1, width_append, Nat.add_assoc]
  | fault c text fault hgap hcut =>
    rw [lexFrom_fault _ _ hgap hcut] at h
    cases h

/-- The place where no token starts lies within the text. -/
theorem le_of_fault {text : List Char} {start i : Nat} {cause : LexicalFault}
    (h : (lexFrom text start []).ending = .fault cause i) : i ≤ start + width text := by
  induction text using cutInduction generalizing start with
  | nil =>
    rw [lexFrom_nil] at h
    cases h
  | gap c text hgap ih =>
    rw [lexFrom_gap _ _ hgap] at h
    have := ih h
    rw [width_cons]
    omega
  | cut c text t hgap hcut ih =>
    rw [lexFrom_cut_nil _ hgap hcut] at h
    have := ih h
    rw [(Token.cut_eq_ok hcut).1, width_append]
    omega
  | fault c text fault hgap hcut =>
    rw [lexFrom_fault _ _ hgap hcut] at h
    cases h
    omega

/-! ### Bytes and characters -/

theorem charOffsetFrom_eq (count : Nat) (text : List Char) (byte : Nat) :
    charOffsetFrom count text byte = count + charOffset text byte := by
  unfold charOffset
  induction text generalizing count byte with
  | nil => rfl
  | cons c text ih =>
    simp only [charOffsetFrom]
    split
    · rfl
    · rw [ih, ih (0 + 1)]
      omega

theorem charOffset_zero (text : List Char) : charOffset text 0 = 0 := by
  cases text <;> rfl

theorem charOffset_cons {byte : Nat} (h : byte ≠ 0) (c : Char) (text : List Char) :
    charOffset (c :: text) byte = 1 + charOffset text (byte - c.utf8Size) := by
  rw [charOffset, charOffsetFrom, if_neg h, charOffsetFrom_eq, Nat.zero_add]

/-- What follows some text is that much further on, in bytes and in characters. -/
theorem charOffset_append (a b : List Char) (byte : Nat) :
    charOffset (a ++ b) (width a + byte) = a.length + charOffset b byte := by
  induction a with
  | nil => simp [width_nil]
  | cons c a ih =>
    have hsize : 0 < c.utf8Size := c.utf8Size_pos
    have hbyte : width (c :: a) + byte - c.utf8Size = width a + byte := by
      rw [width_cons]
      omega
    rw [List.cons_append, charOffset_cons (by rw [width_cons]; omega), hbyte, ih,
      List.length_cons]
    omega

theorem charOffset_width (a b : List Char) : charOffset (a ++ b) (width a) = a.length := by
  have := charOffset_append a b 0
  rwa [Nat.add_zero, charOffset_zero, Nat.add_zero] at this

/-- Inside a text it does not matter what follows. -/
theorem charOffset_append_left {a : List Char} {byte : Nat} (h : byte ≤ width a) (b : List Char) :
    charOffset (a ++ b) byte = charOffset a byte := by
  induction a generalizing byte with
  | nil =>
    have hzero : byte = 0 := Nat.le_zero.mp h
    rw [hzero, charOffset_zero, charOffset_zero]
  | cons c a ih =>
    by_cases hzero : byte = 0
    · rw [hzero, charOffset_zero, charOffset_zero]
    · rw [width_cons] at h
      rw [List.cons_append, charOffset_cons hzero, charOffset_cons hzero, ih (by omega)]

end Calculator
