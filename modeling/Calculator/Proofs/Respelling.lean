import Calculator.Proofs.Blame

/-! Texts with the same tokens.

How tokens are spelled and spaced has no bearing on their value. Two texts that are cut
into the same tokens have the same value or the same error, and the error is placed in
each of them at the same token, or behind the last (`evaluate_respelled`). -/
namespace Calculator

/-! ### Numbered tokens -/

theorem start_lt_of_mem_numbered {n : Nat} {tokens : List Token} {l : Lexeme}
    (h : l ∈ numbered n tokens) : l.start < n + tokens.length := by
  induction tokens generalizing n with
  | nil => cases h
  | cons token tokens ih =>
    rw [List.length_cons]
    rcases List.mem_cons.mp h with rfl | h
    · dsimp only
      omega
    · have := ih h
      omega

/-- An error of tokens is no lexical one, and it is placed at one of them. Only if the last
is a function there can be an error behind it. -/
theorem Engine.place_of_value {tokens : List Token} {fault : Fault} {i : Nat}
    (h : Engine.value tokens = .error (.located fault i)) :
    (∀ cause, fault ≠ .lexical cause) ∧
      (i < tokens.length ∨
        i = tokens.length ∧ fault = .missingNumber ∧ ∃ f, tokens.getLast? = some (.function f)) := by
  have hplace : ∀ l ∈ numbered 0 tokens, l.start < tokens.length := fun l hl => by
    have := start_lt_of_mem_numbered hl
    omega
  rcases (blames_of_evaluate h).cases with ⟨_, _, hending⟩ | ⟨rfl, hending, before, l, f, hlast, htoken⟩ |
    ⟨l, hl, rfl, hfault⟩
  · cases hending
  · cases hending
    refine ⟨nofun, .inr ⟨rfl, rfl, f, ?_⟩⟩
    have htokens := congrArg (List.map Lexeme.token) hlast
    rw [map_token_numbered, List.map_append, List.map_singleton, htoken] at htokens
    rw [htokens, List.getLast?_concat]
  · exact ⟨hfault, .inl (hplace l hl)⟩

/-! ### Two texts -/

/-- Where token `i` of a source starts, in characters. Behind the last token it is where the
source ends. -/
def tokenPlace (source : String) (i : Nat) : Nat :=
  ((lex source).lexemes[i]?.map fun l => charOffset source.toList l.start).getD source.length

theorem tokenPlace_of_getElem? {source : String} {i : Nat} {l : Lexeme}
    (h : (lex source).lexemes[i]? = some l) :
    tokenPlace source i = charOffset source.toList l.start := by
  rw [tokenPlace, h]
  rfl

theorem tokenPlace_length (source : String) :
    tokenPlace source (lex source).lexemes.length = source.length := by
  rw [tokenPlace, List.getElem?_length]
  rfl

theorem evaluate_eq_tokenPlace {source : String} (h : (lex source).Complete) :
    evaluate source =
      (Engine.value (lex source).tokens).mapError (EvalError.mapPosition (tokenPlace source)) := by
  obtain ⟨stop, hstop⟩ := h
  have hend : charOffset source.toList stop = source.length := by
    have hwidth := charOffset_width source.toList []
    rw [List.append_nil] at hwidth
    rw [stop_of_complete hstop, Nat.zero_add, hwidth, String.length_toList]
  rw [evaluate_eq_value (fun i => ((lex source).lexemes[i]?.map Lexeme.start).getD stop) hstop
    (fun i l hl => by rw [hl]; rfl) (by simp)]
  congr 2
  funext i
  unfold tokenPlace
  cases (lex source).lexemes[i]? with
  | none => exact hend
  | some l => rfl

/-- Two texts have the same value, or the same error at tokens with the same number. -/
inductive Alike (s t : String) : Prop where
  | value (v : Float) (hs : evaluate s = .ok v) (ht : evaluate t = .ok v)
  | incomplete (hs : evaluate s = .error .incomplete) (ht : evaluate t = .error .incomplete)
  /-- Each text has its own place for the token, counted in its own characters. -/
  | token (fault : Fault) (i : Nat) (l m : Lexeme) (hfault : ∀ cause, fault ≠ .lexical cause)
    (hl : (lex s).lexemes[i]? = some l) (hm : (lex t).lexemes[i]? = some m)
    (hs : evaluate s = .error (.located fault (charOffset s.toList l.start)))
    (ht : evaluate t = .error (.located fault (charOffset t.toList m.start)))
  /-- The number is missing behind the last token of each. -/
  | ending (f : UnaryFunction) (hlast : (lex s).tokens.getLast? = some (.function f))
    (hs : evaluate s = .error (.located .missingNumber s.length))
    (ht : evaluate t = .error (.located .missingNumber t.length))

/-- **What a text is worth depends on its tokens alone**, and so does at which of them it
fails. -/
theorem evaluate_respelled {s t : String} (hs : (lex s).Complete) (ht : (lex t).Complete)
    (h : (lex s).tokens = (lex t).tokens) : Alike s t := by
  have hevals := evaluate_eq_tokenPlace hs
  have hevalt := evaluate_eq_tokenPlace ht
  rw [← h] at hevalt
  have hlength : (lex s).lexemes.length = (lex t).lexemes.length := by
    simpa [Lexed.tokens] using congrArg List.length h
  cases hvalue : Engine.value (lex s).tokens with
  | ok v =>
    rw [hvalue] at hevals hevalt
    exact .value v hevals hevalt
  | error e =>
    rw [hvalue] at hevals hevalt
    cases e with
    | incomplete => exact .incomplete hevals hevalt
    | located fault i =>
      obtain ⟨hfault, hi | ⟨rfl, rfl, f, hlast⟩⟩ := Engine.place_of_value hvalue
      · rw [Lexed.tokens, List.length_map] at hi
        have hl := List.getElem?_eq_getElem hi
        have hm := List.getElem?_eq_getElem (hlength ▸ hi)
        refine .token fault i _ _ hfault hl hm ?_ ?_
        · rw [hevals, ← tokenPlace_of_getElem? hl]
          rfl
        · rw [hevalt, ← tokenPlace_of_getElem? hm]
          rfl
      · rw [Lexed.tokens, List.length_map] at hevals hevalt
        refine .ending f hlast ?_ ?_
        · rw [hevals, ← tokenPlace_length s]
          rfl
        · rw [hevalt, ← tokenPlace_length t, ← hlength]
          rfl

/-- A quotient by zero, with and without gaps, glyph and decimals. -/
theorem evaluate_respelled_quotient :
    (lex "√9/(2.0-2)").Complete ∧ (lex "\n sqrt 9.00\t/ ( 2 - 2. )").Complete ∧
      (lex "√9/(2.0-2)").tokens = (lex "\n sqrt 9.00\t/ ( 2 - 2. )").tokens ∧
      Alike "√9/(2.0-2)" "\n sqrt 9.00\t/ ( 2 - 2. )" ∧
      evaluate "√9/(2.0-2)" = .error (.located .divisionByZero 2) ∧
      evaluate "\n sqrt 9.00\t/ ( 2 - 2. )" = .error (.located .divisionByZero 12) := by
  have hs : (lex "√9/(2.0-2)").Complete := by decide +kernel
  have ht : (lex "\n sqrt 9.00\t/ ( 2 - 2. )").Complete := by decide +kernel
  have htokens : (lex "√9/(2.0-2)").tokens = (lex "\n sqrt 9.00\t/ ( 2 - 2. )").tokens := by
    decide +kernel
  exact ⟨hs, ht, htokens, evaluate_respelled hs ht htokens, by decide +kernel, by decide +kernel⟩

end Calculator
