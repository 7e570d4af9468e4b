/-! Blank space around and between words.

`isBlank` is the Unicode property `White_Space`, twenty-five characters. `trim`
takes them off both ends of a text and `words` divides a text at them. Between
the tokens of an expression fewer characters are allowed. -/
namespace Calculator.Text

/-- The characters with the property `White_Space`, as ranges of code points. -/
def blanks : List (Nat × Nat) :=
  [(0x9, 0xd), (0x20, 0x20), (0x85, 0x85), (0xa0, 0xa0), (0x1680, 0x1680), (0x2000, 0x200a),
   (0x2028, 0x2029), (0x202f, 0x202f), (0x205f, 0x205f), (0x3000, 0x3000)]

def isBlank (c : Char) : Bool := blanks.any fun range => range.1 ≤ c.toNat && c.toNat ≤ range.2

/-- A text without the blanks it starts and ends with. -/
def trim (text : List Char) : List Char :=
  ((text.dropWhile isBlank).reverse.dropWhile isBlank).reverse

/-- The parts of a text between blanks. -/
def words (text : List Char) : List (List Char) :=
  (text.splitOnP isBlank).filter fun word => !word.isEmpty

end Calculator.Text
