import Calculator.Proofs.Blame
import Calculator.Proofs.Finiteness
import Calculator.Proofs.Presses
import Calculator.Proofs.Readback

/-! Errors that stay on the display.

What the keys write are words and numerals, and so is what is displayed for a number. A
text made of such pieces (`Worded`) holds no invalid character wherever they meet
(`Worded.legible`). The marker is no such text, and as it stays in front of whatever is
written next, every `=` fails at it until `C` is pressed. Between the two there is nothing:
a display is `Worded` unless it begins like the marker (`tells_run`). -/
namespace Calculator
open Decimal.Literal (isNumeral)

/-! ### Texts of words and numerals -/

/-- A text of digits, points and words of the lexicon, one after the other. -/
inductive Worded : List Char → Prop where
  | nil : Worded []
  | numeral {c : Char} {text : List Char} (hc : isNumeral c = true) (h : Worded text) :
    Worded (c :: text)
  | word {word text : List Char} {token : Token} (hword : (word, token) ∈ Token.lexicon)
    (h : Worded text) : Worded (word ++ text)

/-- No character is found invalid in the text, read from its start or, as one may go on
behind a malformed number, from behind any of its digits and points. -/
def Legible (text : List Char) : Prop :=
  ∀ before rest, text = before ++ rest → (∀ c ∈ before.getLast?, isNumeral c = true) →
    ∀ start c i, (lexFrom rest start []).ending ≠ .fault (.invalidCharacter c) i

namespace Worded
variable {c : Char} {text more : List Char}

theorem append (h : Worded text) (h' : Worded more) : Worded (text ++ more) := by
  induction h with
  | nil => exact h'
  | numeral hc _ ih => exact .numeral hc ih
  | word hword _ ih =>
    rw [List.append_assoc]
    exact .word hword ih

/-- What a text that is not empty begins with. -/
theorem cons_cases (h : Worded (c :: text)) : isNumeral c = true ∨
    ∃ word rest token, (word, token) ∈ Token.lexicon ∧ c :: text = word ++ rest ∧ Worded rest := by
  generalize hall : c :: text = all at h
  cases h with
  | nil => cases hall
  | numeral hc =>
    cases hall
    exact .inl hc
  | word hword h => exact .inr ⟨_, _, _, hword, rfl, h⟩

theorem isGap_head (h : Worded (c :: text)) : isGap c = false := by
  rcases h.cons_cases with hc | ⟨word, rest, token, hword, htext, -⟩
  · exact Token.isGap_of_isNumeral hc
  · cases word with
    | nil => exact absurd rfl (Token.lexicon_ne_nil hword)
    | cons d word =>
      cases htext
      exact (Token.lexicon_head hword).1

/-- There are neither digits nor points in a word. -/
theorem not_isNumeral {word : List Char} {token : Token} (hword : (word, token) ∈ Token.lexicon)
    (hc : c ∈ word) : isNumeral c = false := by
  have hall : ∀ entry ∈ Token.lexicon, entry.1.any isNumeral = false := by decide
  simpa using List.any_eq_false.mp (hall _ hword) c hc

/-- What follows a digit or a point is made of words and numerals too, as no word goes on
behind one. -/
theorem suffix {before rest : List Char} (h : Worded text) (htext : text = before ++ rest)
    (hlast : ∀ c ∈ before.getLast?, isNumeral c = true) : Worded rest := by
  induction h generalizing before with
  | nil =>
    rw [(List.append_eq_nil_iff.mp htext.symm).2]
    exact .nil
  | numeral hc h ih =>
    cases before with
    | nil =>
      cases htext
      exact .numeral hc h
    | cons d before =>
      obtain ⟨rfl, hrest⟩ := List.cons.inj htext
      refine ih hrest fun c hc => hlast c ?_
      rw [List.getLast?_cons, Option.mem_def.mp hc]
      rfl
  | @word word text token hword h ih =>
    rcases List.append_eq_append_iff.mp htext with ⟨more, rfl, hrest⟩ | ⟨more, hcut, rfl⟩
    · refine ih hrest fun c hc => hlast c ?_
      rw [List.getLast?_append, Option.mem_def.mp hc]
      rfl
    · -- Only the empty text ends in front of a word or within it.
      cases before using List.reverseRecOn with
      | nil =>
        cases hcut
        exact .word hword h
      | append_singleton before c =>
        have hc := not_isNumeral hword (c := c) (by simp [hcut])
        rw [hlast c (by simp)] at hc
        cases hc

/-- Once a token is taken off, the rest is made of words and numerals still. -/
theorem rest_of_cut (h : Worded (c :: text)) {t : Token.Cut} (hcut : Token.cut c text = .ok t) :
    Worded t.rest := by
  obtain ⟨hspells, -⟩ := Token.spells_of_cut hcut
  obtain ⟨htext, hne⟩ := Token.cut_eq_ok hcut
  by_cases hnum : t.token.IsNumber
  · refine h.suffix htext fun d hd => ?_
    have hall : t.spelling.all isNumeral = true := by
      cases htoken : t.token with
      | number x =>
        rw [htoken] at hspells
        exact hspells.1
      | _ =>
        rw [htoken] at hnum
        cases hnum
    exact List.all_eq_true.mp hall d (List.mem_of_getLast? hd)
  · have hmem := Token.mem_lexicon_of_spells hspells hnum
    -- Two words in front of one text are the same word, and a numeral begins none.
    rcases h.cons_cases with hc | ⟨word, rest, token, hword, hrest, h⟩
    · cases hspelling : t.spelling with
      | nil => exact absurd hspelling hne
      | cons d spelling =>
        rw [hspelling] at htext hmem
        cases htext
        rw [not_isNumeral hmem List.mem_cons_self] at hc
        cases hc
    · have hfirst := word?_append hmem t.rest
      rw [← htext, hrest, word?_append hword] at hfirst
      cases hfirst
      exact h

/-- Some token starts wherever there is text, be it a malformed number. -/
theorem cut_ne_invalid (h : Worded (c :: text)) (d : Char) :
    Token.cut c text ≠ .error (.invalidCharacter d) := by
  intro hcut
  rcases Token.cut_eq_error hcut with ⟨-, -, hfault⟩ | ⟨hnum, hnone, -⟩
  · cases hfault
  · rcases h.cons_cases with hc | ⟨word, rest, token, hword, htext, -⟩
    · rw [hnum] at hc
      cases hc
    · exact hnone _ hword ⟨rest, htext.symm⟩

theorem ending_ne_invalid (h : Worded text) (start i : Nat) (d : Char) :
    (lexFrom text start []).ending ≠ .fault (.invalidCharacter d) i := by
  induction text using cutInduction generalizing start with
  | nil => simp
  | gap c text hgap ih =>
    rw [h.isGap_head] at hgap
    cases hgap
  | cut c text t hgap hcut ih =>
    rw [lexFrom_cut_nil _ hgap hcut]
    exact ih (h.rest_of_cut hcut) _
  | fault c text fault hgap hcut =>
    rw [lexFrom_fault _ _ hgap hcut]
    intro hending
    cases hending
    exact h.cut_ne_invalid d hcut

/-- **Words and numerals make no invalid character, however they are joined.** -/
theorem legible (h : Worded text) : Legible text :=
  fun _ _ htext hlast start c i => (h.suffix htext hlast).ending_ne_invalid start i c

theorem evaluate_ne_invalid {text : String} (h : Worded text.toList) (c : Char) (i : Nat) :
    evaluate text ≠ .error (.located (.lexical (.invalidCharacter c)) i) := by
  intro heq
  obtain ⟨byte, heq, -⟩ := mapPosition_eq_located_iff.mp heq
  rcases (Engine.blames_of_evaluate heq).cases with
    ⟨cause, hcause, hending⟩ | ⟨hfault, -⟩ | ⟨l, -, -, hfault⟩
  · cases hcause
    exact h.ending_ne_invalid _ _ _ hending
  · cases hfault
  · exact hfault _ rfl

/-! ### What comes to the display -/

theorem of_mem {text : List Char} (h : ∀ c ∈ text, c = '-' ∨ isNumeral c = true) :
    Worded text := by
  induction text with
  | nil => exact .nil
  | cons c text ih =>
    have htext := ih fun d hd => h d (List.mem_cons_of_mem c hd)
    rcases h c List.mem_cons_self with rfl | hc
    · have hminus : (['-'], .operator .sub) ∈ Token.lexicon := by decide
      exact .word hminus htext
    · exact .numeral hc htext

theorem valueText {v : Float} (hv : v.isFinite = true) :
    Worded (Display.valueText v).toList := of_mem fun _ hc => Display.mem_valueText hv hc

theorem label {key : Key} (h : key.Writes) : Worded key.label.toList := by
  have hall : ∀ key ∈ Key.all, key ≠ .equals → key ≠ .clear →
      key.label.toList.all isNumeral = true ∨
        ∃ entry ∈ Token.lexicon, entry.1 = key.label.toList := by decide +kernel
  rcases hall key (Key.mem_all key) (fun heq => by rw [heq] at h; exact h)
    (fun heq => by rw [heq] at h; exact h) with hlabel | ⟨⟨word, token⟩, hword, hlabel⟩
  · exact of_mem fun c hc => .inr (List.all_eq_true.mp hlabel c hc)
  · rw [← hlabel, ← List.append_nil word]
    exact .word hword .nil

end Worded

theorem head?_marker : Display.marker.toList.head? = some 'E' := by decide

/-- What begins like the marker fails at its first letter. -/
theorem evaluate_of_head? {text : String} (h : text.toList.head? = some 'E') :
    evaluate text = .error (.located (.lexical (.invalidCharacter 'E')) 0) := by
  obtain ⟨rest, htext⟩ := List.head?_eq_some_iff.mp h
  have hwords : ∀ entry ∈ Token.lexicon, ¬ entry.1 <+: 'E' :: rest := by
    have hall : ∀ entry ∈ Token.lexicon, entry.1.head?.any (· != 'E') = true := by decide
    rintro ⟨word, token⟩ hword ⟨more, hmore⟩
    have hhead := hall _ hword
    cases word with
    | nil => cases hhead
    | cons c word =>
      cases hmore
      cases hhead
  have hlex : lex text = ⟨[], .fault (.invalidCharacter 'E') 0⟩ := by
    rw [lex, htext, lexFrom_fault 0 [] (by decide) (Token.cut_of_invalid (by decide) hwords)]
    rfl
  rw [evaluate, hlex]
  exact congrArg (fun i => Except.error (EvalError.located _ i)) (charOffset_zero _)

namespace Keypad

/-! ### Failures since the last `C` -/

/-- Among the labels is an `=` that failed, with no `C` after it. -/
def Stale (labels : List String) : Prop :=
  ∃ before after, labels = before ++ "=" :: after ∧ "C" ∉ after ∧
    ((blank.run before).1.pressLabel "=").2.succeeded = false

theorem not_stale_nil : ¬ Stale [] := by
  rintro ⟨before, after, hlabels, -⟩
  simp at hlabels

/-- One more press lets a failure stand unless it is `C`, and may be a failure itself. -/
theorem stale_append_singleton {labels : List String} {label : String} :
    Stale (labels ++ [label]) ↔
      (label = "=" ∧ ((blank.run labels).1.pressLabel "=").2.succeeded = false) ∨
        (label ≠ "C" ∧ Stale labels) := by
  constructor
  · rintro ⟨before, after, hlabels, hafter, hfails⟩
    cases after using List.reverseRecOn with
    | nil =>
      obtain ⟨rfl, hlabel⟩ := List.append_inj' hlabels rfl
      cases hlabel
      exact .inl ⟨rfl, hfails⟩
    | append_singleton after last =>
      rw [← List.cons_append, ← List.append_assoc] at hlabels
      obtain ⟨rfl, hlabel⟩ := List.append_inj' hlabels rfl
      cases hlabel
      rw [List.mem_append, not_or] at hafter
      exact .inr ⟨fun h => hafter.2 (List.mem_singleton.mpr h.symm), before, after, rfl, hafter.1,
        hfails⟩
  · rintro (⟨rfl, hfails⟩ | ⟨hlabel, before, after, rfl, hafter, hfails⟩)
    · exact ⟨labels, [], rfl, nofun, hfails⟩
    · exact ⟨before, after ++ [label], by simp, by simp [hafter, hlabel.symm], hfails⟩

/-- What only writes, or is not on any key, is neither `=` nor `C`. -/
theorem stale_append_of_writes {labels : List String} {label : String}
    (h : ∀ key ∈ Key.ofLabel? label, key.Writes) : Stale (labels ++ [label]) ↔ Stale labels := by
  have hequals : label ≠ "=" := fun heq => h .equals (Key.ofLabel?_eq_equals_iff.mpr heq)
  have hclear : label ≠ "C" := fun heq => h .clear (Key.ofLabel?_eq_clear_iff.mpr heq)
  rw [stale_append_singleton]
  exact ⟨fun h => h.elim (fun h => absurd h.1 hequals) And.right, fun h => .inr ⟨hclear, h⟩⟩

theorem not_stale_append_clear (labels : List String) : ¬ Stale (labels ++ ["C"]) := by
  rw [stale_append_singleton]
  exact fun h => h.elim (fun h => absurd h.1 (by decide)) fun h => h.1 rfl

/-! ### What the display tells -/

/-- A display begins like the marker if there was a failure, and is made of words and
numerals if there was none. -/
def Tells (failed : Prop) (display : String) : Prop :=
  (failed ∧ display.toList.head? = some 'E') ∨ (¬ failed ∧ Worded display.toList)

section Tells
variable {failed : Prop} {display : String}

theorem Tells.of_iff {failed' : Prop} (h : Tells failed display) (hiff : failed' ↔ failed) :
    Tells failed' display := by
  rwa [Tells, hiff]

theorem Tells.append (h : Tells failed display) {key : Key} (hkey : key.Writes) :
    Tells failed (display ++ key.label) := by
  rcases h with ⟨hfailed, hhead⟩ | ⟨hfailed, hworded⟩
  · exact .inl ⟨hfailed, by rw [String.toList_append, List.head?_append, hhead]; rfl⟩
  · exact .inr ⟨hfailed, by rw [String.toList_append]; exact hworded.append (.label hkey)⟩

theorem tells_outcome (display : String) :
    Tells ((evaluate display).isOk = false) (Display.outcomeText (evaluate display)) := by
  cases houtcome : evaluate display with
  | error e => exact .inl ⟨rfl, head?_marker⟩
  | ok v => exact .inr ⟨nofun, .valueText (isFinite_of_evaluate houtcome)⟩

/-- A failure on display is one more failure when `=` is pressed. -/
theorem Tells.isOk_evaluate (h : Tells failed display) (hfailed : failed) :
    (evaluate display).isOk = false := by
  rcases h with ⟨-, hhead⟩ | ⟨hnot, -⟩
  · rw [evaluate_of_head? hhead]
    rfl
  · exact absurd hfailed hnot

end Tells

/-- Whether there was a failure depends on the last `=` alone, which repeats any earlier
one. -/
theorem stale_append_equals {labels : List String}
    (h : Tells (Stale labels) (blank.run labels).1.display) :
    Stale (labels ++ ["="]) ↔ (evaluate (blank.run labels).1.display).isOk = false := by
  have hpress : ((blank.run labels).1.pressLabel "=").2.succeeded =
      (evaluate (blank.run labels).1.display).isOk := by
    rw [pressLabel_equals]
    cases evaluate (blank.run labels).1.display <;> rfl
  rw [stale_append_singleton, hpress]
  constructor
  · rintro (⟨-, hfails⟩ | ⟨-, hstale⟩)
    · exact hfails
    · exact h.isOk_evaluate hstale
  · exact fun hfails => .inl ⟨rfl, hfails⟩

/-- **The display tells of a failure until `C` is pressed.** -/
theorem tells_run (labels : List String) :
    Tells (Stale labels) (blank.run labels).1.display := by
  induction labels using List.reverseRecOn with
  | nil => exact .inr ⟨not_stale_nil, .nil⟩
  | append_singleton labels label ih =>
    rw [fst_run_append_singleton]
    -- The cases are those of a press, and each is one way that `Stale` can change.
    cases hkey : Key.ofLabel? label with
    | none =>
      rw [pressLabel_of_none _ hkey]
      exact ih.of_iff (stale_append_of_writes (by simp [hkey]))
    | some key =>
      rw [pressLabel_of_some _ hkey]
      by_cases hwrites : key.Writes
      · rw [press_of_writes _ hwrites]
        exact (ih.append hwrites).of_iff (stale_append_of_writes (by simpa [hkey] using hwrites))
      cases key with
      | equals =>
        rw [Key.ofLabel?_eq_equals_iff.mp hkey]
        exact (tells_outcome _).of_iff (stale_append_equals ih)
      | clear =>
        rw [Key.ofLabel?_eq_clear_iff.mp hkey]
        exact .inr ⟨not_stale_append_clear labels, .nil⟩
      | _ => exact absurd trivial hwrites

/-- **An invalid character is met exactly where an earlier failure is on display.** An `=`
meets one if there was a failing `=` before it and no `C` in between. It is then the first
letter of the marker, at the front, and the marker is displayed again. In all other cases no
character of the display is invalid, not even one behind an error. -/
theorem invalidCharacter_iff_stale (labels : List String) :
    ((∃ c i, ((blank.run labels).1.pressLabel "=").2 =
        .evaluated (.error (.located (.lexical (.invalidCharacter c)) i))) ↔ Stale labels) ∧
      (Stale labels → (blank.run labels).1.pressLabel "=" =
        (⟨"Error"⟩, .evaluated (.error (.located (.lexical (.invalidCharacter 'E')) 0)))) ∧
      (¬ Stale labels → Legible (blank.run labels).1.display.toList) := by
  rcases tells_run labels with ⟨hstale, hhead⟩ | ⟨hstale, hworded⟩
  · have hpress : (blank.run labels).1.pressLabel "=" =
        (⟨"Error"⟩, .evaluated (.error (.located (.lexical (.invalidCharacter 'E')) 0))) := by
      rw [pressLabel_equals, evaluate_of_head? hhead]
      rfl
    exact ⟨iff_of_true ⟨'E', 0, congrArg Prod.snd hpress⟩ hstale, fun _ => hpress,
      fun h => absurd hstale h⟩
  · refine ⟨iff_of_false ?_ hstale, fun h => absurd h hstale, fun _ => hworded.legible⟩
    rintro ⟨c, i, hpress⟩
    rw [pressLabel_equals] at hpress
    exact hworded.evaluate_ne_invalid c i (Reaction.evaluated.inj hpress)

/-- After a division by zero the error is met again whatever is pressed, until `C`. A
malformed number is an error, but holds no invalid character. -/
theorem invalidCharacter_iff_stale_cleared :
    Stale ["5", "/", "0", "=", "7", "x", "√"] ∧
      (blank.run ["5", "/", "0", "=", "7", "x", "√"]).1.pressLabel "=" =
        (⟨"Error"⟩, .evaluated (.error (.located (.lexical (.invalidCharacter 'E')) 0))) ∧
      ¬ Stale ["5", "/", "0", "=", "C", "1", ".", ".", "sin"] ∧
      Legible "1..sin".toList ∧ (evaluate "1..sin").isOk = false := by
  have hstale : Stale ["5", "/", "0", "=", "7", "x", "√"] :=
    ⟨["5", "/", "0"], ["7", "x", "√"], rfl, by decide, by decide +kernel⟩
  obtain ⟨-, hfails, -⟩ := invalidCharacter_iff_stale ["5", "/", "0", "=", "7", "x", "√"]
  obtain ⟨hiff, -, hlegible⟩ :=
    invalidCharacter_iff_stale ["5", "/", "0", "=", "C", "1", ".", ".", "sin"]
  have hdisplay : (blank.run ["5", "/", "0", "=", "C", "1", ".", ".", "sin"]).1 = ⟨"1..sin"⟩ := by
    decide +kernel
  have hmalformed : evaluate "1..sin" =
      .error (.located (.lexical (.malformedNumber "1..")) 0) := by decide +kernel
  rw [hdisplay] at hiff hlegible
  have hcleared : ¬ Stale ["5", "/", "0", "=", "C", "1", ".", ".", "sin"] := by
    rw [← hiff, pressLabel_equals, hmalformed]
    rintro ⟨c, i, hpress⟩
    cases hpress
  exact ⟨hstale, hfails hstale, hcleared, hlegible hcleared, by rw [hmalformed]; rfl⟩

end Keypad
end Calculator
