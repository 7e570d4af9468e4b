import Calculator.Text.Blank

/-! Expressions from bytes, one to a line.

A file is at hand as a whole: it is decoded and then divided into lines. Standard
input comes line by line: it is divided first, and each line is decoded on its
own. Either way one bad byte spoils the whole reading, a line is taken without the
line feed that ends it, and what is left of the lines are their contents between
blanks. -/
namespace Calculator.CommandLine

/-- The byte that ends a line. -/
def lineFeed : UInt8 := 10

/-- The text that bytes encode. -/
def decode? (bytes : ByteArray) : Option (List Char) := (String.fromUTF8? bytes).map String.toList

/-! ### Lines -/

/-- Divides the rest of a list behind every `mark`. Of the part that the rest goes on with
and of the parts before it the latest comes first. -/
def divideFrom {α : Type} [BEq α] (mark : α) (part : List α) (done : List (List α)) :
    List α → List (List α)
  | [] => (if part.isEmpty then done else part.reverse :: done).reverse
  | x :: rest =>
    if x == mark then
      divideFrom mark [] ((x :: part).reverse :: done) rest
    else
      divideFrom mark (x :: part) done rest

/-- Divides a list behind every `mark`. What follows the last one is a part as well, unless
nothing does. -/
def divide {α : Type} [BEq α] (mark : α) (xs : List α) : List (List α) := divideFrom mark [] [] xs

/-- A line without its end, which is a line feed or both a carriage return and a line feed. -/
def chomp (line : List Char) : List Char :=
  match line.reverse with
  | '\n' :: '\r' :: text => text.reverse
  | '\n' :: text => text.reverse
  | _ => line

/-- The lines of a file. -/
def fileLines? (bytes : ByteArray) : Option (List (List Char)) :=
  (decode? bytes).map fun text => (divide '\n' text).map chomp

/-- The lines of standard input. -/
def inputLines? (bytes : ByteArray) : Option (List (List Char)) :=
  (divide lineFeed bytes.data.toList).mapM fun line => (decode? ⟨line.toArray⟩).map chomp

/-- What is written on lines. Blanks around it do not count, and blank lines do not
count at all. -/
def expressions (lines : List (List Char)) : List String :=
  ((lines.map Text.trim).filter fun line => !line.isEmpty).map String.ofList

end Calculator.CommandLine
