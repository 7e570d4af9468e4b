/-! What the command line asks for.

Arguments are read from left to right. A flag is a name after two hyphens or a
letter after one, and letters may be joined; anything else is the one argument
that may be given, and after a lone pair of hyphens everything is. Reading stops
at the first argument that makes no sense, and also at a flag that asks about the
program itself, whatever comes after it. That two flags exclude each other is
noticed last. -/
namespace Calculator.CommandLine

/-! ### Flags -/

inductive Flag where
  | file
  | keys
  /-- Asks for more detail on standard error. It may be repeated and changes no answer. -/
  | verbose
  | version
  | help
  deriving DecidableEq

namespace Flag

def all : List Flag := [.file, .keys, .verbose, .version, .help]

def letter : Flag → Char
  | .file => 'f'
  | .keys => 'k'
  | .verbose => 'v'
  | .version => 'V'
  | .help => 'h'

def name : Flag → String
  | .file => "file"
  | .keys => "keys"
  | .verbose => "verbose"
  | .version => "version"
  | .help => "help"

def ofLetter? (letter : Char) : Option Flag := all.find? fun flag => flag.letter == letter

def ofName? (name : String) : Option Flag := all.find? fun flag => flag.name == name

end Flag

/-! ### Requests -/

inductive Request where
  /-- Evaluate one expression. -/
  | expression (text : String)
  /-- Press the keys of the labels in a text. -/
  | keys (labels : String)
  /-- Evaluate the lines of a file. -/
  | file (path : String)
  /-- Evaluate the lines of standard input. -/
  | input
  | version
  | help
  deriving DecidableEq

inductive UsageError where
  | unknownFlag (argument : String)
  | repeatedFlag (flag : Flag)
  | extraArgument (argument : String)
  /-- The argument cannot be a file and a run of keys at once. -/
  | fileOfKeys
  deriving DecidableEq

def UsageError.message : UsageError → String
  | .unknownFlag argument => s!"error: unexpected argument '{argument}'"
  | .repeatedFlag flag => s!"error: the flag '--{flag.name}' cannot be used multiple times"
  | .extraArgument argument => s!"error: unexpected argument '{argument}'"
  | .fileOfKeys => "error: the flag '--keys' cannot be used with '--file'"

/-! ### Reading arguments -/

/-- What the arguments read so far have set. -/
structure Options where
  file : Bool
  keys : Bool
  contents : Option String
  /-- A lone pair of hyphens has passed. -/
  plain : Bool

/-- Why no more arguments are read. -/
inductive Stop where
  | version
  | help
  | usage (e : UsageError)

namespace Options

/-- Before the first argument. -/
def start : Options := ⟨false, false, none, false⟩

/-- Raises a flag. Those that choose a mode can be raised once. -/
def raise (options : Options) : Flag → Except Stop Options
  | .file =>
    if options.file then .error (.usage (.repeatedFlag .file)) else .ok { options with file := true }
  | .keys =>
    if options.keys then .error (.usage (.repeatedFlag .keys)) else .ok { options with keys := true }
  | .verbose => .ok options
  | .version => .error .version
  | .help => .error .help

/-- Raises a flag if there is one, and otherwise complains about the argument. -/
def raise? (options : Options) (argument : String) : Option Flag → Except Stop Options
  | some flag => options.raise flag
  | none => .error (.usage (.unknownFlag argument))

/-- Takes the argument that is no flag. There can be one. -/
def place (options : Options) (argument : String) : Except Stop Options :=
  match options.contents with
  | none => .ok { options with contents := some argument }
  | some _ => .error (.usage (.extraArgument argument))

/-- Reads one argument. -/
def take (options : Options) (argument : String) : Except Stop Options :=
  if options.plain then
    options.place argument
  else
    match argument.toList with
    | ['-', '-'] => .ok { options with plain := true }
    | '-' :: '-' :: name => options.raise? argument (Flag.ofName? (String.ofList name))
    | '-' :: letter :: letters =>
      (letter :: letters).foldlM
        (fun options letter => options.raise? argument (Flag.ofLetter? letter)) options
    | _ => options.place argument

/-- What the options come to. Without an argument the flags have nothing to apply to. -/
def request (options : Options) : Except UsageError Request :=
  if options.file && options.keys then
    .error .fileOfKeys
  else
    match options.contents with
    | none => .ok .input
    | some contents =>
      if options.keys then .ok (.keys contents)
      else if options.file then .ok (.file contents)
      else .ok (.expression contents)

end Options

/-- What the arguments of a command line ask for. -/
def Request.ofArguments (arguments : List String) : Except UsageError Request :=
  match arguments.foldlM Options.take Options.start with
  | .ok options => options.request
  | .error .version => .ok .version
  | .error .help => .ok .help
  | .error (.usage e) => .error e

end Calculator.CommandLine
