import Calculator.Keypad
import Calculator.CommandLine.Disk
import Calculator.CommandLine.Lines
import Calculator.CommandLine.Request

/-! What the program answers.

A `Report` is all that a run of the program shows: the lines it prints, its exit
status, and a complaint if there was nothing to evaluate. `report` makes it from
the arguments and from the `Inputs` that there are for it to read. The help is no
part of it, that text is written by whatever reads the arguments. -/
namespace Calculator.CommandLine

/-! ### Reports -/

inductive Status where
  /-- Every evaluation succeeded. -/
  | success
  /-- Something was evaluated, or pressed, without success. -/
  | failure
  /-- The request could not be carried out. -/
  | refusal
  deriving DecidableEq

def Status.code : Status → Nat
  | .success => 0
  | .failure => 1
  | .refusal => 2

def Status.ofBool (succeeded : Bool) : Status := if succeeded then .success else .failure

structure Report where
  /-- The lines on standard output. -/
  lines : List String
  status : Status
  /-- The line on standard error. -/
  complaint : Option String

/-- The lines on standard output as one text. -/
def Report.output (report : Report) : String :=
  String.join (report.lines.map fun line => line ++ "\n")

def Report.refuse (complaint : String) : Report := ⟨[], .refusal, some complaint⟩

/-! ### What there is to read -/

/-- The file at each path, and standard input. -/
structure Inputs where
  file : String → Except FileFault ByteArray
  standard : ByteArray

/-- What there is to read where all files are on one disk. -/
def Inputs.ofDisk (disk : Disk) (standard : ByteArray) : Inputs := ⟨disk.read, standard⟩

/-! ### Modes -/

/-- The outcomes of expressions, a line each. -/
def reportExpressions (expressions : List String) : Report :=
  let outcomes := expressions.map evaluate
  ⟨outcomes.map Display.outcomeText, .ofBool (outcomes.all Except.isOk), none⟩

/-- The display after the keys of the labels in a text. -/
def reportKeys (labels : String) : Report :=
  let (keypad, succeeded) := Keypad.blank.run ((Text.words labels.toList).map String.ofList)
  ⟨[keypad.display], .ofBool succeeded, none⟩

/-- There is no reading the file at a path. -/
def reportUnreadable (path : String) (fault : FileFault) : Report :=
  .refuse <| s!"Failed to read the input file '{path}'. Perhaps this file does not exist?: " ++
    fault.message

/-- The outcomes of the lines of a file. -/
def reportFile (path : String) : Except FileFault ByteArray → Report
  | .ok bytes =>
    match fileLines? bytes with
    | some lines => reportExpressions (expressions lines)
    | none => reportUnreadable path .notText
  | .error fault => reportUnreadable path fault

/-- The outcomes of the lines of standard input. -/
def reportInput (input : ByteArray) : Report :=
  match inputLines? input with
  | some lines => reportExpressions (expressions lines)
  | none => .refuse s!"Failed to read expressions from stdin: {FileFault.notText.message}"

def versionLine : String := "sciculate 0.1.0"

/-- What a request is answered with. -/
def Request.report (inputs : Inputs) : Request → Report
  | .expression text => reportExpressions (expressions [text.toList])
  | .keys labels => reportKeys labels
  | .file path => reportFile path (inputs.file path)
  | .input => reportInput inputs.standard
  | .version => ⟨[versionLine], .success, none⟩
  | .help => ⟨[], .success, none⟩

/-- What a command line is answered with. -/
def report (arguments : List String) (inputs : Inputs) : Report :=
  match Request.ofArguments arguments with
  | .ok request => request.report inputs
  | .error e => .refuse e.message

end Calculator.CommandLine
