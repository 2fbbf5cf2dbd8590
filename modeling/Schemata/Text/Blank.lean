namespace Schemata

namespace Text

/-- The code points with the property White_Space, as ranges. -/
def blankRanges : List (Nat × Nat) :=
  [(0x9, 0xd), (0x20, 0x20), (0x85, 0x85), (0xa0, 0xa0), (0x1680, 0x1680), (0x2000, 0x200a), (0x2028, 0x2029),
    (0x202f, 0x202f), (0x205f, 0x205f), (0x3000, 0x3000)]

/-- The character has the property White_Space. -/
def isBlank (c : Char) : Bool := blankRanges.any fun (low, high) => low ≤ c.toNat && c.toNat ≤ high

/-- The text up to its last character that fails the test. -/
def dropEndWhile (test : Char → Bool) (text : List Char) : List Char := (text.reverse.dropWhile test).reverse

/-- The text without blanks at its end. -/
def trimEnd (text : List Char) : List Char := dropEndWhile isBlank text

/-- The text without blanks at its ends. -/
def trim (text : List Char) : List Char := trimEnd (text.dropWhile isBlank)

/-- A line that ended in a line feed, without the carriage return that belongs to the line end. -/
def withoutReturn (line : List Char) : List Char :=
  match line.getLast? with
  | some '\r' => line.dropLast
  | _ => line

/-- The lines of a text; `line` holds what was read of the current one, last character first. -/
def linesFrom (line : List Char) : List Char → List (List Char)
  | [] => if line.isEmpty then [] else [line.reverse]
  | c :: rest => if c = '\n' then withoutReturn line.reverse :: linesFrom [] rest else linesFrom (c :: line) rest

/-- The lines of a text. Nothing follows a final line feed. -/
def lines (text : List Char) : List (List Char) := linesFrom [] text

end Text

end Schemata
