import Calculator.CommandLine.Report

/-! The program: it reads what its arguments ask for and shows the report. -/
namespace Calculator.CommandLine

/-- Why a file could not be read. -/
def FileFault.ofError : IO.Error → FileFault
  | .noFileOrDirectory .. => .missing
  | .permissionDenied .. => .denied
  | .inappropriateType _ code _ => if code == 21 then .directory else .notDirectory
  | e@(.invalidArgument _ code _) => if code == -36 then .nameTooLong else .other (toString e)
  | e => .other (toString e)

/-- Reads the one thing that a request needs, if it needs any. -/
def gather : Option Request → IO Inputs
  | some (.file path) => do
    let file ← (IO.FS.readBinFile path).toBaseIO
    return ⟨fun _ => file.mapError FileFault.ofError, .empty⟩
  | some .input => do
    let input ← (← IO.getStdin).readBinToEnd
    return ⟨fun _ => .error .missing, input⟩
  | _ => return ⟨fun _ => .error .missing, .empty⟩

/-- Shows a report and passes on its exit status. -/
def emit (report : Report) : IO UInt32 := do
  IO.print report.output
  if let some complaint := report.complaint then
    IO.eprintln complaint
  return UInt32.ofNat report.status.code

end Calculator.CommandLine

open Calculator.CommandLine in
def main (arguments : List String) : IO UInt32 := do
  let inputs ← gather (Request.ofArguments arguments).toOption
  emit (report arguments inputs)
