import Calculator.CommandLine.Report
import Calculator.Proofs.Finiteness
import Calculator.Proofs.Readback
import Calculator.Proofs.Reading

/-! What the program prints for a file or for standard input.

The two are reported alike (`reportFile_eq`), a line for everything that is written
between line feeds, and what is printed are these lines and nothing else
(`output_reportExpressions`). No number is displayed as the marker (`valueText_ne_marker`),
so the printed lines tell whether all went well, and the exit status says the same
(`code_reportExpressions`). -/
namespace Calculator.CommandLine

/-! ### Lines and status -/

theorem valueText_ne_marker {v : Float} (hv : v.isFinite = true) :
    Display.valueText v ≠ Display.marker := by
  intro h
  have hmem : 'E' ∈ (Display.valueText v).toList := by
    rw [h]
    decide
  have hletter := Display.mem_valueText hv hmem
  revert hletter
  decide

theorem outcomeText_evaluate_eq_marker_iff {source : String} :
    Display.outcomeText (evaluate source) = Display.marker ↔ (evaluate source).isOk = false := by
  cases h : evaluate source with
  | ok v => exact iff_of_false (valueText_ne_marker (isFinite_of_evaluate h)) nofun
  | error e => exact iff_of_true rfl rfl

theorem lines_reportExpressions (sources : List String) :
    (reportExpressions sources).lines =
      sources.map fun source => Display.outcomeText (evaluate source) := List.map_map

/-- **What is printed are the outcomes in order, a line feed after each.** -/
theorem output_reportExpressions (sources : List String) :
    (reportExpressions sources).output =
      String.join (sources.map fun source => Display.outcomeText (evaluate source) ++ "\n") := by
  rw [Report.output, lines_reportExpressions, List.map_map]
  rfl

/-- **The exit status is that of a failure if the marker is on a line.** -/
theorem code_reportExpressions (sources : List String) :
    (reportExpressions sources).status.code =
      if Display.marker ∈ (reportExpressions sources).lines then 1 else 0 := by
  have hmarker : Display.marker ∈ (reportExpressions sources).lines ↔
      (sources.map evaluate).all Except.isOk = false := by
    rw [lines_reportExpressions, List.mem_map, List.all_map, List.all_eq_false]
    simp [outcomeText_evaluate_eq_marker_iff]
  show (Status.ofBool ((sources.map evaluate).all Except.isOk)).code = _
  simp only [hmarker]
  cases (sources.map evaluate).all Except.isOk <;> rfl

/-! ### Both sources -/

/-- What is written between the line feeds of a text, trimmed. Blank lines do not count. -/
def segments (text : List Char) : List (List Char) :=
  ((text.splitOn '\n').map Text.trim).filter (· ≠ [])

theorem expressions_splitOn (text : List Char) :
    expressions (text.splitOn '\n') = (segments text).map String.ofList := by
  unfold expressions segments
  congr 2
  funext line
  cases line <;> simp

theorem decode?_toUTF8 (text : String) : decode? text.toUTF8 = some text.toList := by
  rw [decode?, String.fromUTF8?, String.toUTF8_eq_toByteArray, dif_pos text.isValidUTF8]
  rfl

theorem decode?_eq_none_iff {bytes : ByteArray} : decode? bytes = none ↔ ¬ bytes.IsValidUTF8 := by
  rw [decode?, Option.map_eq_none_iff, String.fromUTF8?]
  split <;> simp_all

theorem exists_fileLines {bytes : ByteArray} {text : List Char} (h : decode? bytes = some text) :
    ∃ lines, fileLines? bytes = some lines ∧
      expressions lines = (segments text).map String.ofList := by
  refine ⟨(divide '\n' text).map chomp, by rw [fileLines?, h, Option.map_some], ?_⟩
  rw [expressions_chomp, expressions_splitOn]

/-- **Bytes are reported alike from a file and from standard input.** -/
theorem reportFile_eq (path : String) (bytes : ByteArray) :
    (reportFile path (.ok bytes)).lines = (reportInput bytes).lines ∧
      (reportFile path (.ok bytes)).status = (reportInput bytes).status := by
  rw [reportFile, reportInput, inputLines?_eq]
  cases fileLines? bytes <;> exact ⟨rfl, rfl⟩

theorem reportInput_of_decode {bytes : ByteArray} {text : List Char}
    (h : decode? bytes = some text) :
    reportInput bytes = reportExpressions ((segments text).map String.ofList) := by
  obtain ⟨lines, hlines, hexpressions⟩ := exists_fileLines h
  rw [reportInput, inputLines?_eq, hlines, ← hexpressions]

/-- Where the bytes encode no text nothing is printed, not even for the lines before the bad
ones. -/
theorem reportInput_of_invalid {bytes : ByteArray} (h : ¬ bytes.IsValidUTF8) :
    (reportInput bytes).lines = [] ∧ (reportInput bytes).status = .refusal := by
  rw [reportInput, inputLines?_eq, fileLines?, decode?_eq_none_iff.mpr h]
  exact ⟨rfl, rfl⟩

/-! ### Runs of the program -/

/-- What does not start with a hyphen is no flag. -/
theorem take_of_head? (options : Options) {argument : String}
    (h : argument.toList.head? ≠ some '-') :
    options.take argument = options.place argument := by
  unfold Options.take
  split
  · rfl
  · split <;> simp_all

theorem ofArguments_file {path : String} (h : path.toList.head? ≠ some '-') :
    Request.ofArguments ["-f", path] = .ok (.file path) := by
  have hflag : Options.start.take "-f" = .ok { Options.start with file := true } := rfl
  unfold Request.ofArguments
  rw [List.foldlM_cons, hflag, ok_bind, List.foldlM_cons, take_of_head? _ h]
  rfl

/-- **Files and standard input are answered alike, and the exit status agrees with what is
printed.** It does not matter with which arguments the one or the other is asked for. If the
bytes encode no text, nothing is printed and the request is refused. If they do, what is printed
is a line for the outcome of each piece of text between line feeds that is not blank, and the
status is that of a failure if one of the lines is the marker, which is displayed for no
value. -/
theorem report_file_and_input :
    ((∀ path : String, path.toList.head? ≠ some '-' →
        Request.ofArguments ["-f", path] = .ok (.file path)) ∧
      (∀ path, Request.ofArguments ["-f", "--", path] = .ok (.file path)) ∧
      Request.ofArguments [] = .ok .input) ∧
      (∀ (bytes : ByteArray) (path : String) (arguments arguments' : List String)
        (inputs inputs' : Inputs), Request.ofArguments arguments = .ok (.file path) →
        inputs.file path = .ok bytes → Request.ofArguments arguments' = .ok .input →
        inputs'.standard = bytes →
          (report arguments inputs).output = (report arguments' inputs').output ∧
          (report arguments inputs).status = (report arguments' inputs').status ∧
          (¬ bytes.IsValidUTF8 → (report arguments' inputs').output = "" ∧
            (report arguments' inputs').status.code = 2) ∧
          ∀ text : String, text.toUTF8 = bytes →
            (report arguments' inputs').output = String.join ((segments text.toList).map
              fun segment => Display.outcomeText (evaluate (String.ofList segment)) ++ "\n") ∧
            (report arguments inputs).lines = (report arguments' inputs').lines ∧
            (report arguments' inputs').lines = (segments text.toList).map (fun segment =>
              Display.outcomeText (evaluate (String.ofList segment))) ∧
            (report arguments' inputs').status.code =
              if "Error" ∈ (report arguments' inputs').lines then 1 else 0) ∧
      ∀ source v, evaluate source = .ok v → Display.valueText v ≠ "Error" := by
  refine ⟨⟨fun _ => ofArguments_file, fun _ => rfl, rfl⟩, ?_,
    fun source v h => valueText_ne_marker (isFinite_of_evaluate h)⟩
  intro bytes path arguments arguments' inputs inputs' hfile hbytes hinput hstandard
  have hreport : report arguments inputs = reportFile path (.ok bytes) := by
    rw [report, hfile, ← hbytes]
    rfl
  have hreport' : report arguments' inputs' = reportInput bytes := by
    rw [report, hinput, ← hstandard]
    rfl
  obtain ⟨hlines, hstatus⟩ := reportFile_eq path bytes
  rw [hreport, hreport']
  refine ⟨?_, hstatus, fun hinvalid => ?_, fun text htext => ?_⟩
  · rw [Report.output, hlines, Report.output]
  · obtain ⟨hnone, hrefusal⟩ := reportInput_of_invalid hinvalid
    rw [Report.output, hnone, hrefusal]
    exact ⟨rfl, rfl⟩
  · rw [hlines, ← htext, reportInput_of_decode (decode?_toUTF8 text)]
    refine ⟨?_, rfl, ?_, code_reportExpressions _⟩
    · rw [output_reportExpressions, List.map_map]
      rfl
    · rw [lines_reportExpressions, List.map_map]
      rfl

/-- A disk with a file called `sums` and nothing else on it. -/
def sumsDisk (bytes : ByteArray) : Disk := ⟨.directory [("sums", .file bytes)], []⟩

theorem read_sumsDisk (bytes : ByteArray) : (sumsDisk bytes).read "sums" = .ok bytes := rfl

/-- Lines with and without carriage returns, one of them blank, one that fails and one
without an end. -/
def mixedLines : String := "1+1\r\n\n 5/0\n√9"

/-- A good line before a byte that encodes nothing. -/
def spoiledLines : ByteArray := ⟨#[0x31, 0x0a, 0xff]⟩

theorem report_file_and_input_mixed :
    ((report ["-f", "sums"] (.ofDisk (sumsDisk mixedLines.toUTF8) .empty)).output =
        "2.0\nError\n3.0\n" ∧
      (report ["-f", "sums"] (.ofDisk (sumsDisk mixedLines.toUTF8) .empty)).status.code = 1 ∧
      (report ["-v"] (.ofDisk (sumsDisk .empty) mixedLines.toUTF8)).output =
        "2.0\nError\n3.0\n" ∧
      (report ["-v"] (.ofDisk (sumsDisk .empty) mixedLines.toUTF8)).status.code = 1 ∧
      (report ["-v"] (.ofDisk (sumsDisk .empty) mixedLines.toUTF8)).lines =
        ["2.0", "Error", "3.0"]) ∧
      (report ["-f", "sums"] (.ofDisk (sumsDisk spoiledLines) .empty)).output = "" ∧
      (report ["-f", "sums"] (.ofDisk (sumsDisk spoiledLines) .empty)).status.code = 2 ∧
      (report ["-v"] (.ofDisk (sumsDisk .empty) spoiledLines)).output = "" ∧
      (report ["-v"] (.ofDisk (sumsDisk .empty) spoiledLines)).status.code = 2 := by
  obtain ⟨⟨hfile, -⟩, hreports, -⟩ := report_file_and_input
  have hruns := fun bytes : ByteArray => hreports bytes "sums" ["-f", "sums"] ["-v"]
    (.ofDisk (sumsDisk bytes) .empty) (.ofDisk (sumsDisk .empty) bytes) (hfile "sums" (by decide))
    (read_sumsDisk bytes) rfl rfl
  constructor
  · obtain ⟨houtputs, hstatus, -, hdecoded⟩ := hruns mixedLines.toUTF8
    obtain ⟨houtput, -, hlines, hcode⟩ := hdecoded mixedLines rfl
    rw [houtputs, hstatus, hcode, houtput, hlines]
    have hprinted : String.join ((segments mixedLines.toList).map fun segment =>
        Display.outcomeText (evaluate (String.ofList segment)) ++ "\n") = "2.0\nError\n3.0\n" := by
      decide +kernel
    have hshown : (segments mixedLines.toList).map (fun segment =>
        Display.outcomeText (evaluate (String.ofList segment))) = ["2.0", "Error", "3.0"] := by
      decide +kernel
    rw [hprinted, hshown]
    exact ⟨rfl, rfl, rfl, rfl, rfl⟩
  · obtain ⟨houtputs, hstatus, hinvalid, -⟩ := hruns spoiledLines
    obtain ⟨houtput, hcode⟩ := hinvalid (by decide +kernel)
    rw [houtputs, hstatus, houtput, hcode]
    exact ⟨rfl, rfl, rfl, rfl⟩

end Calculator.CommandLine
