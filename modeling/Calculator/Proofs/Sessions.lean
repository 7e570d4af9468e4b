import Calculator.CommandLine.Report
import Calculator.Proofs.Presses

/-! Whole sessions at the keypad.

From the labels of a session alone one can tell what is displayed at its end and whether
it went well (`reportKeys_whole`). If the keys only write and `=` is pressed once, at the end,
the report is that on the written text as an expression (`reportKeys_of_written`). -/
namespace Calculator

/-! ### Blanks -/

theorem Text.trim_of_not_blank {text : List Char} (h : ∀ c ∈ text, isBlank c = false) :
    trim text = text := by
  have hdrop : ∀ part : List Char, (∀ c ∈ part, isBlank c = false) →
      part.dropWhile isBlank = part := by
    intro part hpart
    cases part with
    | nil => rfl
    | cons c part =>
      have hc := hpart c List.mem_cons_self
      exact List.dropWhile_cons_of_neg (by rw [hc]; decide)
  rw [trim, hdrop text h, hdrop _ fun c hc => h c (List.mem_reverse.mp hc), List.reverse_reverse]

/-- There are no blanks in a label. -/
theorem Key.isBlank_of_mem_label {key : Key} {c : Char} (h : c ∈ key.label.toList) :
    Text.isBlank c = false := by
  have hall : ∀ key ∈ Key.all, key.label.toList.all (fun c => !Text.isBlank c) = true := by
    decide +kernel
  simpa using List.all_eq_true.mp (hall key (Key.mem_all key)) c h

theorem Key.label_ne_nil (key : Key) : key.label.toList ≠ [] := by
  have hall : ∀ key ∈ Key.all, key.label.toList ≠ [] := by decide +kernel
  exact hall key (Key.mem_all key)

namespace CommandLine

/-- The labels in a text. -/
def labelsIn (text : String) : List String := (Text.words text.toList).map String.ofList

theorem expressions_written {keys : List Key} (hne : keys ≠ []) :
    expressions [Key.written keys] = [String.ofList (Key.written keys)] := by
  have hblank : ∀ c ∈ Key.written keys, Text.isBlank c = false := by
    intro c hc
    obtain ⟨key, -, hc⟩ := List.mem_flatMap.mp hc
    exact Key.isBlank_of_mem_label hc
  have hwritten : Key.written keys ≠ [] := by
    cases keys with
    | nil => exact absurd rfl hne
    | cons key keys => exact List.append_ne_nil_of_left_ne_nil (Key.label_ne_nil key) _
  simp [expressions, Text.trim_of_not_blank hblank, hwritten]

theorem reportKeys_eq (text : String) :
    reportKeys text =
      ⟨[(Keypad.blank.run (labelsIn text)).1.display],
        .ofBool (Keypad.blank.run (labelsIn text)).2, none⟩ := rfl

/-- What is printed is the display alone. -/
theorem output_reportKeys (text : String) :
    (reportKeys text).output = (Keypad.blank.run (labelsIn text)).1.display ++ "\n" := by
  rw [reportKeys_eq, Report.output, List.map_singleton, String.join_cons, String.join_nil,
    String.append_empty]

section Written
variable {labels : List String} {keys : List Key}

theorem ofLabels_of_map (hlabels : labels.map Key.ofLabel? = keys.map some) :
    Key.ofLabels labels = keys := by
  have hmap : Key.ofLabels labels = (labels.map Key.ofLabel?).filterMap id := by
    rw [List.filterMap_map]
    rfl
  rw [hmap, hlabels, List.filterMap_map]
  exact List.filterMap_some

/-- A run of keys that only write changes the display alone, and nothing goes wrong. -/
theorem run_of_writes (hlabels : labels.map Key.ofLabel? = keys.map some)
    (hkeys : ∀ key ∈ keys, key.Writes) (keypad : Keypad) :
    keypad.run labels = (⟨keypad.display ++ String.ofList (Key.written keys)⟩, true) := by
  have hknown : ∀ label ∈ labels, ∃ key ∈ keys, Key.ofLabel? label = some key := by
    intro label hlabel
    have hmem := List.mem_map_of_mem (f := Key.ofLabel?) hlabel
    rw [hlabels] at hmem
    obtain ⟨key, hkey, heq⟩ := List.mem_map.mp hmem
    exact ⟨key, hkey, heq.symm⟩
  refine Prod.ext ?_ (Keypad.snd_run_iff_known.mpr ⟨fun label hlabel => ?_, ?_⟩)
  · rw [Keypad.fst_run, ofLabels_of_map hlabels, Keypad.pressAll_of_writes keypad hkeys]
  · obtain ⟨key, -, heq⟩ := hknown label hlabel
    rw [heq]
    rfl
  · rintro before after rfl
    obtain ⟨key, hkey, heq⟩ := hknown "=" (by simp)
    rw [Key.ofLabel?_eq_equals_iff.mpr rfl] at heq
    cases heq
    exact absurd (hkeys _ hkey) id

/-- **Keys and then `=` are reported like the text that they write.** -/
theorem reportKeys_of_written (hne : keys ≠ []) (hkeys : ∀ key ∈ keys, key.Writes)
    (hlabels : labels.map Key.ofLabel? = keys.map some) {text : String}
    (htext : labelsIn text = labels ++ ["="]) :
    reportKeys text = reportExpressions (expressions [Key.written keys]) := by
  have hrun := run_of_writes hlabels hkeys Keypad.blank
  have hdisplay : Keypad.blank.display = "" := rfl
  rw [hdisplay, String.empty_append] at hrun
  rw [reportKeys_eq, htext, Keypad.run_append, hrun, Keypad.run_equals, expressions_written hne]
  simp [reportExpressions]

end Written

/-- **What a session shows.** Labels that no key carries are reported as they are and change
nothing, for every other press it is as if they were not there. The display at the end is
what the last `=` or `C` has left, followed by what was written since. A text of labels is
reported with that display, which is all that is printed, and without success if a label is
unknown or an `=` fails anywhere. Keys that write and an `=` behind them are reported like one
expression. -/
theorem reportKeys_whole :
    (∀ (keypad : Keypad) (labels : List String),
      ((labels.zip (keypad.trace labels)).filter fun press => (Key.ofLabel? press.1).isSome).map
        Prod.snd = keypad.trace (labels.filter fun label => (Key.ofLabel? label).isSome)) ∧
      (∀ before label after, Key.ofLabel? label = none →
        (Keypad.blank.trace (before ++ label :: after))[before.length]? =
          some ((Keypad.blank.run before).1, .unknownLabel label)) ∧
      (∀ labels, ∃ earlier later base, Key.ofLabels labels = earlier ++ later ∧
        (∀ key ∈ later, key.Writes) ∧ Keypad.Base earlier base ∧
        (Keypad.blank.run labels).1.display = base ++ String.ofList (Key.written later)) ∧
      (∀ text, (reportKeys text).output = (Keypad.blank.run (labelsIn text)).1.display ++ "\n" ∧
        (reportKeys text).lines = [(Keypad.blank.run (labelsIn text)).1.display] ∧
        ((reportKeys text).status = .success ∨ (reportKeys text).status = .failure) ∧
        ((reportKeys text).status = .success ↔
          (∀ label ∈ labelsIn text, (Key.ofLabel? label).isSome) ∧
            ∀ before after, labelsIn text = before ++ "=" :: after →
              ∃ v, evaluate (Keypad.blank.run before).1.display = .ok v)) ∧
      ∀ (text : String) (labels : List String) (keys : List Key), keys ≠ [] →
        (∀ key ∈ keys, key.Writes) → labels.map Key.ofLabel? = keys.map some →
        labelsIn text = labels ++ ["="] →
          reportKeys text = reportExpressions (expressions [Key.written keys]) := by
  refine ⟨Keypad.trace_filter, fun before label after h => ?_, fun labels => ?_, fun text => ?_,
    fun text labels keys hne hkeys hlabels htext => reportKeys_of_written hne hkeys hlabels htext⟩
  · rw [Keypad.getElem?_trace, Keypad.pressLabel_of_none _ h]
  · rw [Keypad.fst_run]
    exact Keypad.exists_base (Key.ofLabels labels)
  · refine ⟨output_reportKeys text, ?_⟩
    rw [← Keypad.snd_run_iff_known, reportKeys_eq]
    dsimp only
    cases (Keypad.blank.run (labelsIn text)).2 <;> simp [Status.ofBool]

/-- A key that is unknown, a failure that is cleared, and the square root by its keyword
among labels that blanks of several kinds separate. -/
theorem reportKeys_whole_keyword :
    (Keypad.blank.trace ["4", "x", "2"])[1]? = some (⟨"4"⟩, .unknownLabel "x") ∧
      (reportKeys "5 / 0 = C 7").output = "7\n" ∧
      (reportKeys "5 / 0 = C 7").lines = ["7"] ∧
      (reportKeys "5 / 0 = C 7").status ≠ .success ∧
      reportKeys " sqrt 9\t+ 1 =" = reportExpressions ["√9+1"] := by
  obtain ⟨-, hunknown, -, hreport, hwritten⟩ := reportKeys_whole
  obtain ⟨houtput, hlines, -, hsucceeds⟩ := hreport "5 / 0 = C 7"
  have hseven : (Keypad.blank.run (labelsIn "5 / 0 = C 7")).1.display = "7" := by decide +kernel
  refine ⟨?_, ?_, ?_, ?_, ?_⟩
  · have hdisplay : (Keypad.blank.run ["4"]).1 = ⟨"4"⟩ := by decide +kernel
    have hpress := hunknown ["4"] "x" ["2"] (by decide +kernel)
    rwa [hdisplay] at hpress
  · rw [houtput, hseven]
    rfl
  · rw [hlines, hseven]
  · intro hsuccess
    obtain ⟨-, hequals⟩ := hsucceeds.mp hsuccess
    obtain ⟨v, hv⟩ := hequals ["5", "/", "0"] ["C", "7"] (by decide +kernel)
    have hfails : (evaluate (Keypad.blank.run ["5", "/", "0"]).1.display).isOk = false := by
      decide +kernel
    rw [hv] at hfails
    cases hfails
  · rw [hwritten " sqrt 9\t+ 1 =" ["sqrt", "9", "+", "1"]
      [.function .sqrt, .digit 9, .operator .add, .digit 1] (by decide) (by simp [Key.Writes])
      (by decide +kernel) (by decide +kernel)]
    exact congrArg reportExpressions (by decide +kernel)

end CommandLine
end Calculator
