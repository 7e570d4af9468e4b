import Calculator.Proofs.Spelling

/-! What cutting a text yields.

`Reads` says it without the procedure: a text is read as a gap and the longest token
behind it, again and again, up to its end or to a character that starts no token. There
is exactly one reading of a text, and cutting finds it (`lexFrom_eq_iff`). The tokens
therefore stand side by side with nothing but gaps between them (`Gapped`), each of
them stands where its lexeme says (`Lexeme.StandsIn`), and where the text cannot be cut
no token starts (`Ending.ReachedIn`). -/
namespace Calculator
open Decimal.Literal (isNumeral value?)

/-! ### One token -/

namespace Token

theorem spells_of_mem_lexicon {word : List Char} {token : Token} (h : (word, token) ∈ lexicon) :
    ¬ token.IsNumber ∧ token.Spells word := by
  have hnum : ¬ token.IsNumber := by
    have hall : ∀ entry ∈ lexicon, ¬ entry.2.IsNumber := by decide
    exact hall _ h
  refine ⟨hnum, ?_⟩
  cases token with
  | number x => exact absurd trivial hnum
  | _ => exact h

/-- Words of the lexicon end no number. -/
theorem lexicon_last {word : List Char} {token : Token} (h : (word, token) ∈ lexicon) :
    Breaks word.reverse := by
  have hall : ∀ entry ∈ lexicon, entry.1.reverse.head?.all (fun c => !isNumeral c) = true := by
    decide
  intro c hc
  simpa [Option.mem_def.mp hc] using hall _ h

theorem exists_head_of_spells {word : List Char} {token : Token} (h : token.Spells word)
    (hnum : token.IsNumber) : ∃ c run, word = c :: run ∧ isNumeral c = true := by
  cases token with
  | number x =>
    cases word with
    | nil => cases h.2
    | cons c run => exact ⟨c, run, rfl, List.all_eq_true.mp h.1 c List.mem_cons_self⟩
  | _ => cases hnum

theorem breaks_dropWhile (text : List Char) : Breaks (text.dropWhile isNumeral) := by
  intro c hc
  have := List.head?_dropWhile_not isNumeral text
  rw [Option.mem_def.mp hc] at this
  simpa using this

theorem spells_of_cut {c : Char} {text : List Char} {t : Cut} (h : cut c text = .ok t) :
    t.token.Spells t.spelling ∧ (t.token.IsNumber → Breaks t.rest) := by
  unfold cut at h
  split at h
  · next hc =>
    dsimp only at h
    split at h
    · next value hvalue =>
      cases h
      exact ⟨⟨by simp [hc, List.all_takeWhile], hvalue⟩, fun _ => breaks_dropWhile text⟩
    · cases h
  · split at h
    · next t' hword =>
      cases h
      obtain ⟨hnum, hspells⟩ := spells_of_mem_lexicon (word?_eq_some hword).1
      exact ⟨hspells, fun h => absurd h hnum⟩
    · cases h

theorem cut_of_malformed {c : Char} {run rest : List Char} (hrun : (c :: run).all isNumeral = true)
    (hrest : Breaks rest) (hvalue : value? (c :: run) = none) :
    cut c (run ++ rest) = .error (.malformedNumber (String.ofList (c :: run))) := by
  rw [List.all_cons, Bool.and_eq_true] at hrun
  unfold cut
  rw [if_pos hrun.1]
  dsimp only
  rw [takeWhile_run hrun.2 hrest, hvalue]

/-- A text starts with no word of the lexicon if and only if none is found. -/
theorem word?_eq_none_iff {text : List Char} :
    word? text = none ↔ ∀ entry ∈ lexicon, ¬ entry.1 <+: text := by
  constructor
  · rintro h entry hmem ⟨rest, rfl⟩
    rw [word?_append hmem] at h
    cases h
  · intro h
    cases hword : word? text with
    | none => rfl
    | some t =>
      obtain ⟨hmem, htext⟩ := word?_eq_some hword
      exact absurd ⟨t.rest, htext.symm⟩ (h _ hmem)

theorem cut_of_invalid {c : Char} {rest : List Char} (hnum : isNumeral c = false)
    (hword : ∀ entry ∈ lexicon, ¬ entry.1 <+: c :: rest) :
    cut c rest = .error (.invalidCharacter c) := by
  unfold cut
  rw [if_neg (by simp [hnum]), word?_eq_none_iff.mpr hword]

/-- Nothing is cut off where a run of digits and points is no number, or where there is
neither one of these nor a word. -/
theorem cut_eq_error {c : Char} {text : List Char} {fault : LexicalFault}
    (h : cut c text = .error fault) :
    (isNumeral c = true ∧ value? (c :: text.takeWhile isNumeral) = none ∧
        fault = .malformedNumber (String.ofList (c :: text.takeWhile isNumeral))) ∨
      (isNumeral c = false ∧ (∀ entry ∈ lexicon, ¬ entry.1 <+: c :: text) ∧
        fault = .invalidCharacter c) := by
  unfold cut at h
  split at h
  · next hnum =>
    dsimp only at h
    split at h
    · cases h
    · next hvalue =>
      cases h
      exact .inl ⟨hnum, hvalue, rfl⟩
  · next hnum =>
    split at h
    · cases h
    · next hword =>
      cases h
      exact .inr ⟨by simpa using hnum, word?_eq_none_iff.mp hword, rfl⟩

end Token

/-! ### Readings -/

/-- What a text is read as from byte `start` on, with the longest token wherever one
starts. -/
inductive Reads : Nat → List Char → Lexed → Prop where
  | complete {start : Nat} {gap : List Char} (hgap : gap.all isGap = true) :
    Reads start gap ⟨[], .complete (start + width gap)⟩
  /-- A run of digits and points that is no number. -/
  | malformed {start : Nat} {gap run rest : List Char} {c : Char} (hgap : gap.all isGap = true)
    (hrun : (c :: run).all isNumeral = true) (hrest : Token.Breaks rest)
    (hvalue : value? (c :: run) = none) :
    Reads start (gap ++ c :: (run ++ rest))
      ⟨[], .fault (.malformedNumber (String.ofList (c :: run))) (start + width gap)⟩
  | invalid {start : Nat} {gap rest : List Char} {c : Char} (hgap : gap.all isGap = true)
    (hc : isGap c = false) (hnum : isNumeral c = false)
    (hword : ∀ entry ∈ Token.lexicon, ¬ entry.1 <+: c :: rest) :
    Reads start (gap ++ c :: rest) ⟨[], .fault (.invalidCharacter c) (start + width gap)⟩
  | token {start : Nat} (piece : Piece) {rest : List Char} {lexed : Lexed}
    (hrest : piece.token.IsNumber → Token.Breaks rest)
    (hreads : Reads (start + width piece.text) rest lexed) :
    Reads start (piece.text ++ rest)
      (lexed.after [⟨piece.token, start + width piece.gap, start + width piece.text⟩])

/-- A gap in front belongs to what comes next. -/
theorem Reads.cons_gap {c : Char} (hc : isGap c = true) {start : Nat} {text : List Char}
    {lexed : Lexed} (h : Reads (start + c.utf8Size) text lexed) :
    Reads start (c :: text) lexed := by
  have hwidth : ∀ gap, start + c.utf8Size + width gap = start + width (c :: gap) := fun gap => by
    rw [width_cons, Nat.add_assoc]
  have hall : ∀ gap : List Char, gap.all isGap = true → (c :: gap).all isGap = true := by
    intro gap h
    rw [List.all_cons, hc, h, Bool.true_and]
  cases h with
  | complete hgap =>
    rw [hwidth]
    exact .complete (hall _ hgap)
  | malformed hgap hrun hrest hvalue =>
    rw [hwidth]
    exact .malformed (hall _ hgap) hrun hrest hvalue
  | invalid hgap hc hnum hword =>
    rw [hwidth]
    exact .invalid (hall _ hgap) hc hnum hword
  | token piece hrest hreads =>
    obtain ⟨gap, token, word, hgap, hspells⟩ := piece
    rw [hwidth] at hreads ⊢
    rw [hwidth]
    exact .token ⟨c :: gap, token, word, hall gap hgap, hspells⟩ hrest hreads

theorem reads_lexFrom (text : List Char) (start : Nat) :
    Reads start text (lexFrom text start []) := by
  induction text using cutInduction generalizing start with
  | nil =>
    rw [lexFrom_nil]
    have hempty : ([] : List Char).all isGap = true := rfl
    exact .complete hempty
  | gap c text hgap ih =>
    rw [lexFrom_gap _ _ hgap]
    exact (ih _).cons_gap hgap
  | cut c text t hgap hcut ih =>
    rw [lexFrom_cut_nil _ hgap hcut, (Token.cut_eq_ok hcut).1]
    obtain ⟨hspells, hrest⟩ := Token.spells_of_cut hcut
    exact .token ⟨[], t.token, t.spelling, rfl, hspells⟩ hrest (ih _)
  | fault c text fault hgap hcut =>
    rw [lexFrom_fault _ _ hgap hcut]
    have hempty : ([] : List Char).all isGap = true := rfl
    rcases Token.cut_eq_error hcut with ⟨hnum, hvalue, rfl⟩ | ⟨hnum, hword, rfl⟩
    · have hall : (c :: text.takeWhile isNumeral).all isNumeral = true := by
        rw [List.all_cons, hnum, List.all_takeWhile, Bool.true_and]
      have hreads : Reads start ([] ++ c :: (_ ++ _)) _ :=
        .malformed hempty hall (Token.breaks_dropWhile text) hvalue
      rwa [List.takeWhile_append_dropWhile] at hreads
    · exact .invalid hempty hgap hnum hword

theorem Reads.lexFrom_eq {start : Nat} {text : List Char} {lexed : Lexed}
    (h : Reads start text lexed) : lexFrom text start [] = lexed := by
  induction h with
  | @complete start gap hgap =>
    have hgaps := Layout.lexFrom_gaps hgap [] start
    rwa [List.append_nil, lexFrom_nil] at hgaps
  | malformed hgap hrun hrest hvalue =>
    have hc := (List.all_eq_true.mp hrun) _ List.mem_cons_self
    rw [Layout.lexFrom_gaps hgap, lexFrom_fault _ _ (Token.isGap_of_isNumeral hc)
      (Token.cut_of_malformed hrun hrest hvalue)]
    rfl
  | invalid hgap hc hnum hword =>
    rw [Layout.lexFrom_gaps hgap, lexFrom_fault _ _ hc (Token.cut_of_invalid hnum hword)]
    rfl
  | token piece hrest _ ih => rw [Layout.lexFrom_piece piece hrest, ih]

/-- **A text has exactly one reading, and that is how it is cut.** -/
theorem lexFrom_eq_iff {text : List Char} {start : Nat} {lexed : Lexed} :
    lexFrom text start [] = lexed ↔ Reads start text lexed := by
  constructor
  · rintro rfl
    exact reads_lexFrom text start
  · exact Reads.lexFrom_eq

/-! ### Tokens in their places -/

/-- The lexeme covers just a word of its token, and a number all of the digits and points
that stand together. -/
def Lexeme.StandsIn (text : List Char) (l : Lexeme) : Prop :=
  ∃ before word after, text = before ++ word ++ after ∧ l.start = width before ∧
    l.stop = width (before ++ word) ∧ l.token.Spells word ∧
    (l.token.IsNumber → Token.Breaks before.reverse ∧ Token.Breaks after)

/-- There is nothing but a gap from byte `i` to byte `j`. -/
def Gap (text : List Char) (i j : Nat) : Prop :=
  ∃ before gap after, text = before ++ gap ++ after ∧ i = width before ∧
    j = width (before ++ gap) ∧ gap.all isGap = true

/-- From byte `i` to byte `j` there are these lexemes, with nothing but gaps before, between
and behind them. -/
def Gapped (text : List Char) (i : Nat) : List Lexeme → Nat → Prop
  | [], j => Gap text i j
  | l :: lexemes, j => Gap text i l.start ∧ Gapped text l.stop lexemes j

/-- The byte that cutting got to. -/
def Ending.place : Ending → Nat
  | .complete stop => stop
  | .fault _ start => start

/-- All of the text has been read, or it goes on with what starts no token. -/
def Ending.ReachedIn (text : List Char) : Ending → Prop
  | .complete stop => stop = width text
  | .fault cause start =>
    ∃ before c after, text = before ++ c :: after ∧ start = width before ∧ isGap c = false ∧
      ((isNumeral c = true ∧ ∃ run rest, after = run ++ rest ∧ (c :: run).all isNumeral = true ∧
          Token.Breaks before.reverse ∧ Token.Breaks rest ∧ value? (c :: run) = none ∧
          cause = .malformedNumber (String.ofList (c :: run))) ∨
        (isNumeral c = false ∧ (∀ entry ∈ Token.lexicon, ¬ entry.1 <+: c :: after) ∧
          cause = .invalidCharacter c))

/-- No run of digits and points goes on from one text into the other. -/
def Joint (before text : List Char) : Prop :=
  ∀ c ∈ text.head?, isNumeral c = true → Token.Breaks before.reverse

theorem Token.Breaks.append {a : List Char} (h : Breaks a) (hne : a ≠ []) (b : List Char) :
    Breaks (a ++ b) := by
  cases a with
  | nil => exact absurd rfl hne
  | cons c a => exact h

theorem joint_gap {before gap text : List Char} (hgap : gap.all isGap = true)
    (h : Joint before (gap ++ text)) : Joint (before ++ gap) text := by
  intro c hc hnum
  by_cases hempty : gap = []
  · subst hempty
    rw [List.append_nil]
    exact h c hc hnum
  · have hbreaks : Token.Breaks gap.reverse := fun d hd => by
      have hmem : d ∈ gap := List.mem_reverse.mp (List.mem_of_mem_head? hd)
      exact Token.isNumeral_of_isGap (List.all_eq_true.mp hgap d hmem)
    rw [List.reverse_append]
    exact hbreaks.append (by simpa using hempty) _

/-- A number is not gone on with, and no other token could be. -/
theorem joint_piece (piece : Piece) {rest : List Char}
    (hrest : piece.token.IsNumber → Token.Breaks rest) (before : List Char) :
    Joint (before ++ piece.text) rest := by
  intro c hc hnum
  by_cases hnumber : piece.token.IsNumber
  · rw [hrest hnumber c hc] at hnum
    cases hnum
  · have hword := Token.mem_lexicon_of_spells piece.spells hnumber
    rw [Piece.text, List.reverse_append, List.reverse_append, List.append_assoc]
    exact (Token.lexicon_last hword).append (by simpa using Token.lexicon_ne_nil hword) _

section Reading
variable {start : Nat} {text : List Char} {lexed : Lexed}

/-! All that is read of a text that stands behind another is said of both together. -/

theorem Reads.standsIn (h : Reads start text lexed) {before : List Char}
    (hstart : start = width before) (hjoint : Joint before text) :
    ∀ l ∈ lexed.lexemes, l.StandsIn (before ++ text) := by
  induction h generalizing before with
  | complete | malformed | invalid => exact fun _ h => by cases h
  | @token start piece rest lexed hrest hreads ih =>
    intro l hl
    rcases List.mem_cons.mp hl with rfl | hl
    · refine ⟨before ++ piece.gap, piece.word, rest, ?_, ?_, ?_, piece.spells,
        fun hnum => ⟨?_, hrest hnum⟩⟩
      · simp [Piece.text]
      · rw [hstart, width_append]
      · rw [hstart, List.append_assoc, width_append before]
        rfl
      · obtain ⟨c, run, hword, hc⟩ := Token.exists_head_of_spells piece.spells hnum
        rw [Piece.text, hword, List.append_assoc] at hjoint
        exact joint_gap piece.all_isGap hjoint c rfl hc
    · have hstop : start + width piece.text = width (before ++ piece.text) := by
        rw [hstart, width_append]
      have := ih hstop (joint_piece piece hrest before) l hl
      rwa [List.append_assoc] at this

theorem Reads.gapped (h : Reads start text lexed) {before : List Char}
    (hstart : start = width before) :
    Gapped (before ++ text) start lexed.lexemes lexed.ending.place := by
  induction h generalizing before with
  | @complete start gap hgap =>
    exact ⟨before, gap, [], by simp, hstart, by rw [hstart, width_append]; rfl, hgap⟩
  | malformed hgap | invalid hgap =>
    exact ⟨before, _, _, by rw [List.append_assoc], hstart, by rw [hstart, width_append]; rfl, hgap⟩
  | @token start piece rest lexed hrest hreads ih =>
    have hstop : start + width piece.text = width (before ++ piece.text) := by
      rw [hstart, width_append]
    refine ⟨⟨before, piece.gap, piece.word ++ rest, ?_, hstart, ?_, piece.all_isGap⟩, ?_⟩
    · simp [Piece.text]
    · rw [hstart, width_append]
    · have := ih hstop
      rwa [List.append_assoc] at this

theorem Reads.reachedIn (h : Reads start text lexed) {before : List Char}
    (hstart : start = width before) (hjoint : Joint before text) :
    lexed.ending.ReachedIn (before ++ text) := by
  induction h generalizing before with
  | complete => rw [hstart, ← width_append]; rfl
  | @malformed start gap run rest c hgap hrun hrest hvalue =>
    have hc : isNumeral c = true := List.all_eq_true.mp hrun c List.mem_cons_self
    refine ⟨before ++ gap, c, run ++ rest, by simp, by rw [hstart, width_append],
      Token.isGap_of_isNumeral hc, .inl ⟨hc, run, rest, rfl, hrun, ?_, hrest, hvalue, rfl⟩⟩
    exact joint_gap hgap hjoint c rfl hc
  | @invalid start gap rest c hgap hc hnum hword =>
    exact ⟨before ++ gap, c, rest, by simp, by rw [hstart, width_append], hc,
      .inr ⟨hnum, hword, rfl⟩⟩
  | @token start piece rest lexed hrest hreads ih =>
    have hstop : start + width piece.text = width (before ++ piece.text) := by
      rw [hstart, width_append]
    have := ih hstop (joint_piece piece hrest before)
    rwa [List.append_assoc] at this

end Reading

theorem Lexeme.StandsIn.lt {text : List Char} {l : Lexeme} (h : l.StandsIn text) :
    l.start < l.stop := by
  obtain ⟨before, word, after, -, hstart, hstop, hspells, -⟩ := h
  rw [width_append] at hstop
  cases word with
  | nil => exact absurd rfl (Token.ne_nil_of_spells hspells)
  | cons c word =>
    have := c.utf8Size_pos
    rw [width_cons] at hstop
    omega

theorem Gap.le {text : List Char} {i j : Nat} (h : Gap text i j) : i ≤ j := by
  obtain ⟨_, _, _, -, hi, hj, -⟩ := h
  rw [width_append] at hj
  omega

/-- Lexemes with gaps between them do not overlap. -/
theorem Gapped.pairwise {text : List Char} {i j : Nat} {lexemes : List Lexeme}
    (h : Gapped text i lexemes j) (hlt : ∀ l ∈ lexemes, l.start < l.stop) :
    (∀ l ∈ lexemes, i ≤ l.start) ∧ lexemes.Pairwise fun l m => l.stop ≤ m.start := by
  induction lexemes generalizing i with
  | nil => exact ⟨nofun, .nil⟩
  | cons l lexemes ih =>
    obtain ⟨hgap, h⟩ := h
    obtain ⟨hbounds, hpairs⟩ := ih h fun m hm => hlt m (List.mem_cons_of_mem _ hm)
    have hil := hgap.le
    have hltl := hlt l List.mem_cons_self
    refine ⟨fun m hm => ?_, .cons hbounds hpairs⟩
    rcases List.mem_cons.mp hm with rfl | hm
    · exact hil
    · have := hbounds m hm
      omega

/-- Nor do they go on behind the end. -/
theorem Gapped.stop_le {text : List Char} {i j : Nat} {lexemes : List Lexeme}
    (h : Gapped text i lexemes j) (hlt : ∀ l ∈ lexemes, l.start < l.stop) :
    i ≤ j ∧ ∀ l ∈ lexemes, l.stop ≤ j := by
  induction lexemes generalizing i with
  | nil => exact ⟨h.le, nofun⟩
  | cons l lexemes ih =>
    obtain ⟨hgap, h⟩ := h
    obtain ⟨hstop, hall⟩ := ih h fun m hm => hlt m (List.mem_cons_of_mem _ hm)
    have hil := hgap.le
    have hltl := hlt l List.mem_cons_self
    refine ⟨by omega, fun m hm => ?_⟩
    rcases List.mem_cons.mp hm with rfl | hm
    · exact hstop
    · exact hall m hm

theorem Gapped.gap_between {text : List Char} {i j : Nat} {before after : List Lexeme}
    {l next : Lexeme} (h : Gapped text i (before ++ l :: next :: after) j) :
    Gap text l.stop next.start := by
  induction before generalizing i with
  | nil => exact h.2.1
  | cons m before ih => exact ih h.2

/-! ### Whole texts -/

section Source
variable (source : String)

theorem joint_nil (text : List Char) : Joint [] text := fun _ _ _ _ h => by cases h

theorem standsIn_lex : ∀ l ∈ (lex source).lexemes, l.StandsIn source.toList :=
  (reads_lexFrom source.toList 0).standsIn width_nil.symm (joint_nil _)

theorem gapped_lex : Gapped source.toList 0 (lex source).lexemes (lex source).ending.place :=
  (reads_lexFrom source.toList 0).gapped width_nil.symm

theorem reachedIn_lex : (lex source).ending.ReachedIn source.toList :=
  (reads_lexFrom source.toList 0).reachedIn width_nil.symm (joint_nil _)

end Source

/-- **A text is cut into the longest tokens it has.** How it is cut is the one way to read
it. The lexemes cover words of their tokens, numbers whole; none overlap, and between
them are gaps alone; and if the text is not read to its end, no token starts where it
ends. Tokens that are written out in any way come back as they were written. -/
theorem lex_maximal_munch :
    (∀ source lexed, lex source = lexed ↔ Reads 0 source.toList lexed) ∧
      (∀ source, (∀ l ∈ (lex source).lexemes, l.start < l.stop ∧ l.StandsIn source.toList) ∧
        (lex source).lexemes.Pairwise (fun l m => l.stop ≤ m.start) ∧
        Gapped source.toList 0 (lex source).lexemes (lex source).ending.place ∧
        (lex source).ending.ReachedIn source.toList) ∧
      ∀ layout : Layout, Layout.Separate layout.pieces →
        lex layout.text =
          ⟨Layout.lexemes 0 layout.pieces, .complete (width layout.text.toList)⟩ := by
  refine ⟨fun source lexed => lexFrom_eq_iff, fun source => ?_, fun layout h => ?_⟩
  · have hlt : ∀ l ∈ (lex source).lexemes, l.start < l.stop := fun l hl =>
      (standsIn_lex source l hl).lt
    exact ⟨fun l hl => ⟨hlt l hl, standsIn_lex source l hl⟩,
      ((gapped_lex source).pairwise hlt).2, gapped_lex source, reachedIn_lex source⟩
  · rw [Layout.lex_text layout h, Layout.text, String.toList_ofList]

/-- Words that begin alike, numbers side by side, and a number that runs into a word. -/
def closeLayout : Layout where
  pieces :=
    [⟨[], .function .sin, ['s', 'i', 'n'], rfl, by decide⟩,
      ⟨[], .function .sqrt, ['s', 'q', 'r', 't'], rfl, by decide⟩,
      ⟨[], .number 0.5, ['.', '5'], rfl, by decide +kernel⟩,
      ⟨['\x0c', '\r'], .number 7, ['7', '.'], rfl, by decide +kernel⟩,
      ⟨[], .function .sqrt, ['√'], rfl, by decide⟩,
      ⟨[], .function .cos, ['c', 'o', 's'], rfl, by decide⟩]
  gap := ['\n']
  all_isGap := rfl

theorem lex_closeLayout :
    Layout.Separate closeLayout.pieces ∧ lex "sinsqrt.5\x0c\r7.√cos\n" =
      ⟨[⟨.function .sin, 0, 3⟩, ⟨.function .sqrt, 3, 7⟩, ⟨.number 0.5, 7, 9⟩,
        ⟨.number 7, 11, 13⟩, ⟨.function .sqrt, 13, 16⟩, ⟨.function .cos, 16, 19⟩], .complete 20⟩ := by
  have h : Layout.Separate closeLayout.pieces := by decide
  exact ⟨h, lex_maximal_munch.2.2 closeLayout h⟩

end Calculator
