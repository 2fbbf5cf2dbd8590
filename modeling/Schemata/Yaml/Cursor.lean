namespace Schemata

namespace Yaml

/-- A character that ends a line. -/
def isBreak (c : Char) : Bool :=
  c == '\n' || c == '\r' || c == '\u0085' || c == '\u2028' || c == '\u2029'

def isBlank (c : Char) : Bool := c == ' ' || c == '\t'

/-- A letter, a digit, an underscore or a hyphen. -/
def isWord (c : Char) : Bool := c.isAlphanum || c == '_' || c == '-'

/-- A character that a text may hold. -/
def isAllowed (c : Char) : Bool :=
  let n := c.toNat
  n == 0x9 || n == 0xa || n == 0xd || (0x20 ≤ n && n ≤ 0x7e) || n == 0x85 || (0xa0 ≤ n && n ≤ 0xd7ff)
    || (0xe000 ≤ n && n ≤ 0xfffd) || 0x10000 ≤ n

/-- A place in a text. -/
structure Cursor where
  rest : List Char
  line : Nat := 0
  column : Nat := 0
  index : Nat := 0

namespace Cursor

def peek (c : Cursor) : Option Char := c.rest.head?

/-- The character so many places further on. -/
def peekAt (c : Cursor) (n : Nat) : Option Char := c.rest[n]?

def sees (c : Cursor) (char : Char) : Bool := c.peek == some char

/-- The next character passes the test; the end of the text does not. -/
def seesAny (c : Cursor) (test : Char → Bool) : Bool := (c.peek.map test).getD false

/-- A blank, a line end or the end of the text stands so many places further on. -/
def blankOrEndAt (c : Cursor) (n : Nat) : Bool := (c.peekAt n).all fun char => isBlank char || isBreak char

/-- A line end or the end of the text is next. -/
def atLineEnd (c : Cursor) : Bool := c.peek.all isBreak

/-- The place so many characters further on, on the same line. -/
def skip (c : Cursor) (n : Nat) : Cursor :=
  { c with rest := c.rest.drop n, column := c.column + n, index := c.index + n }

/-- The place behind the characters that pass the test, on the same line, and those characters. -/
def skipWhile (c : Cursor) (test : Char → Bool) : List Char × Cursor :=
  let taken := c.rest.takeWhile test
  (taken, c.skip taken.length)

/-- The place behind a line end, and the text that the line end stands for. -/
def skipLine (c : Cursor) : List Char × Cursor :=
  let next (n : Nat) : Cursor := ⟨c.rest.drop n, c.line + 1, 0, c.index + n⟩
  match c.rest with
  | '\r' :: '\n' :: _ => (['\n'], next 2)
  | '\u2028' :: _ => (['\u2028'], next 1)
  | '\u2029' :: _ => (['\u2029'], next 1)
  | char :: _ => if isBreak char then (['\n'], next 1) else ([], c)
  | [] => ([], c)

/-- A comment, if there is one, up to the end of its line. -/
def skipComment (c : Cursor) : Cursor :=
  if c.sees '#' then (c.skipWhile fun char => !isBreak char).2 else c

/-- Three times this character stands at the start of a line, as a word of its own. -/
def seesMarker (c : Cursor) (char : Char) : Bool :=
  c.column == 0 && c.sees char && c.peekAt 1 == some char && c.peekAt 2 == some char && c.blankOrEndAt 3

/-- A marker that starts or ends a document is next. -/
def seesDocumentMarker (c : Cursor) : Bool := c.seesMarker '-' || c.seesMarker '.'

/-- What is left of the line is blank or a comment; the place behind the line. -/
def finishLine? (c : Cursor) : Option Cursor :=
  let c := ((c.skipWhile isBlank).2).skipComment
  if c.atLineEnd then some c.skipLine.2 else none

end Cursor

end Yaml

end Schemata
