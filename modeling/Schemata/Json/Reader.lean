import Schemata.Json.Number

namespace Schemata

namespace Json

/-- Why a text is not JSON. -/
inductive Cause where
  | endInValue | endInList | endInObject | endInString
  | expectedColon | expectedListEnd | expectedObjectEnd | expectedLiteral | expectedValue
  | invalidEscape | invalidNumber | numberOutOfRange | controlCharacter | keyNotString
  | trailingComma | trailingCharacters | endInHexEscape | loneSurrogate | tooDeep
deriving DecidableEq

def Cause.message : Cause → String
  | .endInValue => "EOF while parsing a value"
  | .endInList => "EOF while parsing a list"
  | .endInObject => "EOF while parsing an object"
  | .endInString => "EOF while parsing a string"
  | .expectedColon => "expected `:`"
  | .expectedListEnd => "expected `,` or `]`"
  | .expectedObjectEnd => "expected `,` or `\x7d`"
  | .expectedLiteral => "expected ident"
  | .expectedValue => "expected value"
  | .invalidEscape => "invalid escape"
  | .invalidNumber => "invalid number"
  | .numberOutOfRange => "number out of range"
  | .controlCharacter => "control character (\\u0000-\\u001F) found while parsing a string"
  | .keyNotString => "key must be a string"
  | .trailingComma => "trailing comma"
  | .trailingCharacters => "trailing characters"
  | .endInHexEscape => "unexpected end of hex escape"
  | .loneSurrogate => "lone leading surrogate in hex escape"
  | .tooDeep => "recursion limit exceeded"

/-- A cause and its place: the text that was left, and how many of its bytes had been looked at. -/
structure Fault where
  cause : Cause
  rest : List Char
  seen : Nat

/-- A value that was read and the text after it. -/
abbrev Parsed (α : Type) := α × List Char

/-- A fault at the first byte of what is left; at the end of the text nothing is left to look at. -/
def faultAt {α : Type} (cause : Cause) (rest : List Char) : Except Fault α :=
  .error ⟨cause, rest, if rest.isEmpty then 0 else 1⟩

/-- The blanks of JSON. -/
def isBlank (c : Char) : Bool := c = ' ' || c = '\t' || c = '\n' || c = '\r'

def skipBlanks (text : List Char) : List Char := text.dropWhile isBlank

/-- The text after the letters of a literal. -/
def readLetters : List Char → List Char → Except Fault (List Char)
  | [], text => .ok text
  | _ :: _, [] => faultAt .endInValue []
  | letter :: letters, c :: rest => if c = letter then readLetters letters rest else faultAt .expectedLiteral (c :: rest)

/-- The value of a hexadecimal digit of either case. -/
def hexValue? (c : Char) : Option Nat :=
  if '0' ≤ c ∧ c ≤ '9' then some (c.toNat - 48)
  else if 'a' ≤ c ∧ c ≤ 'f' then some (c.toNat - 87)
  else if 'A' ≤ c ∧ c ≤ 'F' then some (c.toNat - 55)
  else none

/-- How many bytes the text takes, counted up to a bound. -/
def bytesUpTo : Nat → List Char → Nat
  | 0, _ => 0
  | _, [] => 0
  | bound + 1, c :: rest => c.utf8Size + bytesUpTo bound rest

/-- The unit written by four hexadecimal digits; four bytes are always looked at together. -/
def readHex (text : List Char) : Except Fault (Parsed Nat) :=
  if bytesUpTo 4 text < 4 then faultAt .endInString []
  else match text with
    | a :: b :: c :: d :: rest =>
      match hexValue? a, hexValue? b, hexValue? c, hexValue? d with
      | some a, some b, some c, some d => .ok (((a * 16 + b) * 16 + c) * 16 + d, rest)
      | _, _, _, _ => .error ⟨.invalidEscape, text, 4⟩
    | _ => .error ⟨.invalidEscape, text, 4⟩

/-- The character of an escape that starts with `\u`; two units make one character past U+FFFF. -/
def readUnicode (text : List Char) : Except Fault (Parsed Char) := do
  let (first, rest) ← readHex text
  if 0xDC00 ≤ first ∧ first ≤ 0xDFFF then .error ⟨.loneSurrogate, rest, 0⟩
  else if first < 0xD800 ∨ 0xDBFF < first then return (Char.ofNat first, rest)
  else
    match rest with
    | [] => faultAt .endInString []
    | '\\' :: [] => faultAt .endInString []
    | '\\' :: 'u' :: rest =>
      let (second, rest) ← readHex rest
      if second < 0xDC00 ∨ 0xDFFF < second then .error ⟨.loneSurrogate, rest, 0⟩
      else return (Char.ofNat (0x10000 + (first - 0xD800) * 0x400 + (second - 0xDC00)), rest)
    | '\\' :: rest => faultAt .endInHexEscape rest
    | rest => faultAt .endInHexEscape rest

/-- The character of an escape, after the backslash. -/
def readEscape (text : List Char) : Except Fault (Parsed Char) :=
  match text with
  | [] => faultAt .endInString []
  | '"' :: rest => .ok ('"', rest)
  | '\\' :: rest => .ok ('\\', rest)
  | '/' :: rest => .ok ('/', rest)
  | 'b' :: rest => .ok ('\x08', rest)
  | 'f' :: rest => .ok ('\x0c', rest)
  | 'n' :: rest => .ok ('\n', rest)
  | 'r' :: rest => .ok ('\r', rest)
  | 't' :: rest => .ok ('\t', rest)
  | 'u' :: rest => readUnicode rest
  | _ => faultAt .invalidEscape text

/-- The characters of a string after its opening quote, put behind those read so far (last first). -/
def readChars : Nat → List Char → List Char → Except Fault (Parsed String)
  | 0, _, text => faultAt .endInString text
  | _ + 1, _, [] => faultAt .endInString []
  | fuel + 1, soFar, c :: rest =>
    if c = '"' then .ok (String.ofList soFar.reverse, rest)
    else if c = '\\' then
      match readEscape rest with
      | .ok (escaped, rest) => readChars fuel (escaped :: soFar) rest
      | .error fault => .error fault
    else if c.toNat < 32 then faultAt .controlCharacter (c :: rest)
    else readChars fuel (c :: soFar) rest

/-- A string after its opening quote. -/
def readString (text : List Char) : Except Fault (Parsed String) := readChars (text.length + 1) [] text

/-- A number after its sign. -/
def readNumber (negative : Bool) (text : List Char) : Except Fault (Parsed Json) :=
  match Number.read negative text with
  | .ok (n, rest) => .ok (.number n, rest)
  | .error (.unfinished, rest) => faultAt .endInValue rest
  | .error (.unexpected, rest) => faultAt .invalidNumber rest
  | .error (.outOfRange, rest) => .error ⟨.numberOutOfRange, rest, 0⟩

/-- The text after a colon. -/
def readColon (text : List Char) : Except Fault (List Char) :=
  match skipBlanks text with
  | [] => faultAt .endInObject []
  | ':' :: rest => .ok rest
  | rest => faultAt .expectedColon rest

mutual
/-- A value in which at most `depth` containers may be open at once. -/
def readValue : Nat → Nat → List Char → Except Fault (Parsed Json)
  | 0, _, text => faultAt .expectedValue text
  | fuel + 1, depth, text =>
    match skipBlanks text with
    | [] => faultAt .endInValue []
    | c :: rest =>
      if c = 'n' then (readLetters ['u', 'l', 'l'] rest).map (.null, ·)
      else if c = 't' then (readLetters ['r', 'u', 'e'] rest).map (.bool true, ·)
      else if c = 'f' then (readLetters ['a', 'l', 's', 'e'] rest).map (.bool false, ·)
      else if c = '-' then readNumber true rest
      else if c.isDigit then readNumber false (c :: rest)
      else if c = '"' then (readString rest).map fun (value, rest) => (.string value, rest)
      else if c = '[' then
        match depth with
        | 0 => faultAt .tooDeep (c :: rest)
        | depth + 1 => (readItems fuel depth rest).map fun (items, rest) => (.array items, rest)
      else if c = '\x7b' then
        match depth with
        | 0 => faultAt .tooDeep (c :: rest)
        | depth + 1 =>
          (readFields fuel depth rest).map fun (fields, rest) => (.object (Table.insertAll [] fields), rest)
      else faultAt .expectedValue (c :: rest)

/-- The members of an array, after its opening bracket. -/
def readItems : Nat → Nat → List Char → Except Fault (Parsed (List Json))
  | 0, _, text => faultAt .endInList text
  | fuel + 1, depth, text =>
    match skipBlanks text with
    | [] => faultAt .endInList []
    | ']' :: rest => .ok ([], rest)
    | rest => do
      let (value, rest) ← readValue fuel depth rest
      let (values, rest) ← readMoreItems fuel depth rest
      return (value :: values, rest)

/-- The members of an array after its first. -/
def readMoreItems : Nat → Nat → List Char → Except Fault (Parsed (List Json))
  | 0, _, text => faultAt .endInList text
  | fuel + 1, depth, text =>
    match skipBlanks text with
    | [] => faultAt .endInList []
    | ']' :: rest => .ok ([], rest)
    | ',' :: rest =>
      match skipBlanks rest with
      | [] => faultAt .endInValue []
      | ']' :: rest => faultAt .trailingComma (']' :: rest)
      | rest => do
        let (value, rest) ← readValue fuel depth rest
        let (values, rest) ← readMoreItems fuel depth rest
        return (value :: values, rest)
    | rest => faultAt .expectedListEnd rest

/-- The entries of an object, after its opening brace. -/
def readFields : Nat → Nat → List Char → Except Fault (Parsed (List (String × Json)))
  | 0, _, text => faultAt .endInObject text
  | fuel + 1, depth, text =>
    match skipBlanks text with
    | [] => faultAt .endInObject []
    | c :: rest =>
      if c = '\x7d' then .ok ([], rest)
      else if c = '"' then readField fuel depth rest
      else faultAt .keyNotString (c :: rest)

/-- An entry, after the opening quote of its name, and the entries behind it. -/
def readField : Nat → Nat → List Char → Except Fault (Parsed (List (String × Json)))
  | 0, _, text => faultAt .endInObject text
  | fuel + 1, depth, text => do
    let (name, rest) ← readString text
    let rest ← readColon rest
    let (value, rest) ← readValue fuel depth rest
    let (fields, rest) ← readMoreFields fuel depth rest
    return ((name, value) :: fields, rest)

/-- The entries of an object after its first. -/
def readMoreFields : Nat → Nat → List Char → Except Fault (Parsed (List (String × Json)))
  | 0, _, text => faultAt .endInObject text
  | fuel + 1, depth, text =>
    match skipBlanks text with
    | [] => faultAt .endInObject []
    | c :: rest =>
      if c = '\x7d' then .ok ([], rest)
      else if c = ',' then
        match skipBlanks rest with
        | [] => faultAt .endInValue []
        | c :: rest =>
          if c = '"' then readField fuel depth rest
          else if c = '\x7d' then faultAt .trailingComma (c :: rest)
          else faultAt .keyNotString (c :: rest)
      else faultAt .expectedObjectEnd (c :: rest)
end

/-- The greatest depth of a value that can be read. -/
def maxDepth : Nat := 127

/-- Reads a text that holds one value and nothing else but blanks. -/
def readText (text : List Char) : Except Fault Json := do
  let (value, rest) ← readValue (2 * text.length + 2) maxDepth text
  match skipBlanks rest with
  | [] => return value
  | rest => faultAt .trailingCharacters rest

/-- Why and where a text is not JSON; the column counts bytes since the last line break. -/
structure ReadError where
  cause : Cause
  line : Nat
  column : Nat
deriving DecidableEq

def ReadError.message (e : ReadError) : String :=
  s!"{e.cause.message} at line {e.line} column {e.column}"

/-- The line and column after so many bytes of the text. -/
def position (line column : Nat) : Nat → List Char → Nat × Nat
  | _, [] => (line, column)
  | bytes, c :: rest =>
    if bytes = 0 then (line, column)
    else if c = '\n' then position (line + 1) 0 (bytes - 1) rest
    else position line (column + min bytes c.utf8Size) (bytes - c.utf8Size) rest

/-- The number of bytes of the text. -/
def byteCount (text : List Char) : Nat := text.foldl (fun n c => n + c.utf8Size) 0

/-- The error of a fault that was met in the text. -/
def Fault.locate (fault : Fault) (text : List Char) : ReadError :=
  let consumed := byteCount text - byteCount fault.rest + fault.seen
  let (line, column) := position 1 0 consumed text
  ⟨fault.cause, line, column⟩

def read (text : String) : Except ReadError Json :=
  match readText text.toList with
  | .ok value => .ok value
  | .error fault => .error (fault.locate text.toList)

end Json

end Schemata
