import Mathlib
import Calculator.CommandLine.Lines

/-! Two readers of one text.

A file is decoded and then divided into lines, standard input is divided first. Both come
to the same (`inputLines?_eq`), because the byte of a line feed occurs in the encoding of
no other character: to divide what encodes a text is to encode what divides it
(`divide_encode`). What ends a line is blank, so what is written on the lines is what is
written between line feeds (`expressions_chomp`). -/
namespace Calculator.CommandLine

/-! ### Dividing -/

section Dividing
variable {α : Type} [BEq α] {mark : α}

theorem divideFrom_done (part : List α) (done : List (List α)) (xs : List α) :
    divideFrom mark part done xs = done.reverse ++ divideFrom mark part [] xs := by
  induction xs generalizing part done with
  | nil =>
    simp only [divideFrom]
    split <;> simp
  | cons x xs ih =>
    simp only [divideFrom]
    split
    · rw [ih, ih [] [_]]
      simp
    · exact ih _ _

variable [LawfulBEq α]

theorem divideFrom_mark (part xs : List α) :
    divideFrom mark part [] (mark :: xs) = (mark :: part).reverse :: divide mark xs := by
  rw [divideFrom, if_pos (beq_self_eq_true mark), divideFrom_done]
  rfl

/-- What holds no mark is passed over at once. -/
theorem divideFrom_append {a : List α} (h : mark ∉ a) (part xs : List α) :
    divideFrom mark part [] (a ++ xs) = divideFrom mark (a.reverse ++ part) [] xs := by
  induction a generalizing part with
  | nil => rfl
  | cons x a ih =>
    rw [List.mem_cons, not_or] at h
    have hx : ¬ (x == mark) = true := fun hx => h.1 (eq_of_beq hx).symm
    rw [List.cons_append, divideFrom, if_neg hx, ih h.2, List.reverse_cons, List.append_assoc]
    rfl

theorem divide_append_mark {a : List α} (h : mark ∉ a) (xs : List α) :
    divide mark (a ++ mark :: xs) = (a ++ [mark]) :: divide mark xs := by
  rw [divide, divideFrom_append h, divideFrom_mark]
  simp

theorem divide_of_not_mem {a : List α} (h : mark ∉ a) :
    divide mark a = if a.isEmpty then [] else [a] := by
  have hall := divideFrom_append h [] []
  rw [List.append_nil] at hall
  rw [divide, hall, divideFrom]
  cases a <;> simp

/-- To show something of every list, show it of one without a mark, and of one that goes on
behind its first mark with a list of which it holds. -/
theorem markInduction (mark : α) {motive : List α → Prop} (unmarked : ∀ a, mark ∉ a → motive a)
    (marked : ∀ a xs, mark ∉ a → motive xs → motive (a ++ mark :: xs)) (xs : List α) : motive xs := by
  by_cases hmem : mark ∈ xs
  · obtain ⟨a, rest, hxs, ha⟩ := List.eq_append_cons_of_mem hmem
    rw [hxs]
    exact marked a rest ha (markInduction mark unmarked marked rest)
  · exact unmarked xs hmem
termination_by xs.length
decreasing_by
  rw [hxs, List.length_append, List.length_cons]
  omega

/-- Dividing loses nothing. -/
theorem flatten_divide (xs : List α) : (divide mark xs).flatten = xs := by
  induction xs using markInduction mark with
  | unmarked a ha =>
    rw [divide_of_not_mem ha]
    cases a <;> simp
  | marked a xs ha ih =>
    rw [divide_append_mark ha, List.flatten_cons, ih]
    simp

end Dividing

/-! ### Bytes and characters -/

/-- The bytes that encode a text. -/
def encode (text : List Char) : List UInt8 := text.flatMap String.utf8EncodeChar

theorem encode_append (a b : List Char) : encode (a ++ b) = encode a ++ encode b :=
  List.flatMap_append

/-- Bytes are decoded as the one text that they encode. -/
theorem decode?_eq_some_iff {bytes : ByteArray} {text : List Char} :
    decode? bytes = some text ↔ bytes.data.toList = encode text := by
  have hencode : ∀ bytes : ByteArray, bytes = text.utf8Encode ↔ bytes.data.toList = encode text := by
    intro bytes
    rw [ByteArray.ext_iff, List.utf8Encode, List.data_toByteArray, ← Array.toList_inj]
    rfl
  rw [← hencode, decode?, String.fromUTF8?]
  constructor
  · intro h
    split at h
    · next hvalid =>
      cases h
      rw [String.utf8Encode_toList]
      rfl
    · cases h
  · rintro rfl
    have hof : String.fromUTF8 text.utf8Encode ByteArray.isValidUTF8_utf8Encode = String.ofList text :=
      String.toByteArray_inj.mp String.toByteArray_ofList.symm
    rw [dif_pos ByteArray.isValidUTF8_utf8Encode, hof, Option.map_some, String.toList_ofList]

theorem lineFeed_ne {n : Nat} (hn : n ≠ 10) (hlt : n < 256) : lineFeed ≠ UInt8.ofNat n := by
  intro h
  have hnat := congrArg UInt8.toNat h
  rw [UInt8.toNat_ofNat_of_lt' hlt] at hnat
  exact hn hnat.symm

/-- The byte of a line feed is part of no other character: where there are several bytes, all
of them are larger. -/
theorem lineFeed_not_mem {c : Char} (h : c ≠ '\n') : lineFeed ∉ String.utf8EncodeChar c := by
  have hne : c.val.toNat ≠ 10 := fun hc => h (Char.ext (UInt32.toNat.inj hc))
  unfold String.utf8EncodeChar
  dsimp only
  generalize c.val.toNat = n at hne
  split
  · exact List.not_mem_cons_of_ne_of_not_mem (lineFeed_ne hne (by omega)) List.not_mem_nil
  · split
    · simp only [List.mem_cons, List.not_mem_nil, or_false, not_or]
      exact ⟨lineFeed_ne (by omega) (by omega), lineFeed_ne (by omega) (by omega)⟩
    · split
      · simp only [List.mem_cons, List.not_mem_nil, or_false, not_or]
        exact ⟨lineFeed_ne (by omega) (by omega), lineFeed_ne (by omega) (by omega),
          lineFeed_ne (by omega) (by omega)⟩
      · simp only [List.mem_cons, List.not_mem_nil, or_false, not_or]
        exact ⟨lineFeed_ne (by omega) (by omega), lineFeed_ne (by omega) (by omega),
          lineFeed_ne (by omega) (by omega), lineFeed_ne (by omega) (by omega)⟩

theorem lineFeed_not_mem_encode {text : List Char} (h : '\n' ∉ text) : lineFeed ∉ encode text := by
  intro hmem
  obtain ⟨c, hc, hmem⟩ := List.mem_flatMap.mp hmem
  exact lineFeed_not_mem (fun heq => h (heq ▸ hc)) hmem

/-- To divide what encodes a text is to encode what divides it. -/
theorem divide_encode (text : List Char) :
    divide lineFeed (encode text) = (divide '\n' text).map encode := by
  have hmark : encode ['\n'] = [lineFeed] := by decide
  induction text using markInduction '\n' with
  | unmarked a ha =>
    rw [divide_of_not_mem ha, divide_of_not_mem (lineFeed_not_mem_encode ha)]
    cases a with
    | nil => rfl
    | cons c a => simp [encode]
  | marked a text ha ih =>
    rw [divide_append_mark ha, List.append_cons, encode_append, encode_append, hmark,
      List.append_assoc, List.singleton_append, divide_append_mark (lineFeed_not_mem_encode ha),
      ih, List.map_cons, encode_append, hmark]

/-! ### Both readers -/

theorem mapM_encode (lines : List (List Char)) :
    ((lines.map encode).mapM fun line => (decode? ⟨line.toArray⟩).map chomp) =
      some (lines.map chomp) := by
  induction lines with
  | nil => rfl
  | cons line lines ih =>
    have hline : decode? ⟨(encode line).toArray⟩ = some line := decode?_eq_some_iff.mpr rfl
    rw [List.map_cons, List.mapM_cons, hline, ih]
    rfl

/-- Lines that can be decoded one by one encode a text together. -/
theorem exists_encode_of_mapM {lines : List (List UInt8)} {texts : List (List Char)}
    (h : lines.mapM (fun line => (decode? ⟨line.toArray⟩).map chomp) = some texts) :
    ∃ text, lines.flatten = encode text := by
  induction lines generalizing texts with
  | nil => exact ⟨[], rfl⟩
  | cons line lines ih =>
    rw [List.mapM_cons] at h
    obtain ⟨first, hfirst, h⟩ := Option.bind_eq_some_iff.mp h
    obtain ⟨rest, hrest, -⟩ := Option.bind_eq_some_iff.mp h
    obtain ⟨text, hdecode, -⟩ := Option.map_eq_some_iff.mp hfirst
    obtain ⟨more, hmore⟩ := ih hrest
    exact ⟨text ++ more, by
      rw [List.flatten_cons, hmore, encode_append, ← decode?_eq_some_iff.mp hdecode]⟩

/-- **Dividing first and decoding first come to the same**, also where the bytes encode no
text. -/
theorem inputLines?_eq (bytes : ByteArray) : inputLines? bytes = fileLines? bytes := by
  cases hdecode : decode? bytes with
  | some text =>
    rw [inputLines?, fileLines?, decode?_eq_some_iff.mp hdecode, divide_encode, mapM_encode, hdecode]
    rfl
  | none =>
    have hfile : fileLines? bytes = none := by rw [fileLines?, hdecode, Option.map_none]
    rw [hfile]
    cases hlines : inputLines? bytes with
    | none => rfl
    | some texts =>
      -- Lines that could all be decoded would make up a text.
      exfalso
      obtain ⟨text, htext⟩ := exists_encode_of_mapM hlines
      rw [flatten_divide] at htext
      rw [decode?_eq_some_iff.mpr htext] at hdecode
      cases hdecode

/-! ### What is written on lines -/

open Text (isBlank trim)

/-- A blank behind a text is trimmed off. -/
theorem trim_append_blank {c : Char} (hc : isBlank c = true) (text : List Char) :
    trim (text ++ [c]) = trim text := by
  have hdrop : [c].dropWhile isBlank = [] := by rw [List.dropWhile_cons_of_pos hc, List.dropWhile_nil]
  unfold trim
  rw [List.dropWhile_append, hdrop]
  split
  · next h => rw [List.isEmpty_iff.mp h]
  · rw [List.reverse_append, List.reverse_singleton, List.singleton_append,
      List.dropWhile_cons_of_pos hc]

/-- What ends a line is blank. -/
theorem trim_chomp (line : List Char) : trim (chomp line) = trim line := by
  have hfeed : isBlank '\n' = true := by decide
  have hreturn : isBlank '\r' = true := by decide
  unfold chomp
  split
  · next text h =>
    rw [List.reverse_eq_iff] at h
    rw [h, List.reverse_cons, trim_append_blank hfeed, List.reverse_cons, trim_append_blank hreturn]
  · next text _ h =>
    rw [List.reverse_eq_iff] at h
    rw [h, List.reverse_cons, trim_append_blank hfeed]
  · rfl

theorem expressions_map_chomp (lines : List (List Char)) :
    expressions (lines.map chomp) = expressions lines := by
  have htrim : trim ∘ chomp = trim := funext trim_chomp
  rw [expressions, List.map_map, htrim, expressions]

/-- Lines that differ in blanks alone have the same written on them. -/
theorem expressions_cons_congr {line line' : List Char} {lines lines' : List (List Char)}
    (hline : trim line = trim line') (hlines : expressions lines = expressions lines') :
    expressions (line :: lines) = expressions (line' :: lines') := by
  unfold expressions at hlines ⊢
  rw [List.map_cons, List.map_cons, hline, List.filter_cons, List.filter_cons]
  split
  · rw [List.map_cons, List.map_cons, hlines]
  · exact hlines

/-- **What is written on the lines is what is written between line feeds.** -/
theorem expressions_chomp (text : List Char) :
    expressions ((divide '\n' text).map chomp) = expressions (text.splitOn '\n') := by
  rw [expressions_map_chomp]
  induction text using markInduction '\n' with
  | unmarked a ha =>
    rw [divide_of_not_mem ha, List.splitOn_eq_singleton ha]
    cases a <;> rfl
  | marked a text ha ih =>
    rw [divide_append_mark ha, List.splitOn_append_cons_self_of_not_mem ha]
    exact expressions_cons_congr (trim_append_blank (by decide) a) ih

end Calculator.CommandLine
