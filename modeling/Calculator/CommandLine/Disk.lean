/-! Files, and the paths that name them.

A `Disk` holds files in directories. A path is followed through them one name at
a time (`Place.enter`), from the root if it starts with a slash and otherwise
from the directory in which the program works. `Disk.read` answers with the bytes
of the file at its end, or with the first thing that stops it.

The program has no disk of its own: it asks the operating system for a file, and
`FileFault` is all that it needs from here. A `Disk` stands for the operating
system where the answers have to be known beforehand. -/
namespace Calculator.CommandLine

/-! ### Faults -/

/-- Why a file has no text. -/
inductive FileFault where
  | missing
  | denied
  | notDirectory
  | directory
  /-- Its path, or a name on the path, has too many bytes. -/
  | nameTooLong
  /-- Its bytes encode no text. -/
  | notText
  | other (cause : String)

def FileFault.message : FileFault → String
  | .missing => "No such file or directory (os error 2)"
  | .denied => "Permission denied (os error 13)"
  | .notDirectory => "Not a directory (os error 20)"
  | .directory => "Is a directory (os error 21)"
  | .nameTooLong => "File name too long (os error 36)"
  | .notText => "stream did not contain valid UTF-8"
  | .other cause => cause

/-! ### Places -/

inductive Entry where
  | file (bytes : ByteArray)
  | directory (entries : List (String × Entry))

def Entry.bytes : Entry → Except FileFault ByteArray
  | .file bytes => .ok bytes
  | .directory _ => .error .directory

/-- An entry, and the directories that it is in, the innermost first. -/
structure Place where
  entry : Entry
  above : List Entry

/-- The directory that an entry is in. The root is in itself. -/
def Place.parent (place : Place) : Place :=
  match place.above with
  | [] => place
  | entry :: above => ⟨entry, above⟩

/-- The most bytes that a name may have. -/
def nameLimit : Nat := 255

/-- Where a name leads from a place. Only a directory leads anywhere, be it to itself. -/
def Place.enter (place : Place) (name : String) : Except FileFault Place :=
  match place.entry with
  | .file _ => .error .notDirectory
  | .directory entries =>
    if name = "" ∨ name = "." then .ok place
    else if name = ".." then .ok place.parent
    else if nameLimit < name.utf8ByteSize then .error .nameTooLong
    else match entries.lookup name with
      | some entry => .ok ⟨entry, place.entry :: place.above⟩
      | none => .error .missing

/-- Where names lead one after the other. -/
def Place.follow (place : Place) (names : List String) : Except FileFault Place :=
  names.foldlM Place.enter place

/-! ### Disks -/

structure Disk where
  root : Entry
  /-- The names that lead from the root to where the program works. -/
  working : List String

/-- The most bytes that a path may have. -/
def pathLimit : Nat := 4095

/-- The names on a path, from the root on. -/
def Disk.names (disk : Disk) (path : String) : List String :=
  let names := (path.toList.splitOn '/').map String.ofList
  if path.toList.head? = some '/' then names else disk.working ++ names

/-- The bytes of the file that a path names. The empty path names none. -/
def Disk.read (disk : Disk) (path : String) : Except FileFault ByteArray :=
  if path = "" then .error .missing
  else if pathLimit < path.utf8ByteSize then .error .nameTooLong
  else do
    let place ← Place.follow ⟨disk.root, []⟩ (disk.names path)
    place.entry.bytes

end Calculator.CommandLine
