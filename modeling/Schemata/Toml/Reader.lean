import Schemata.Text.Percent
import Schemata.Toml.Document

namespace Schemata

namespace Toml

/-- What was read and what is left. -/
abbrev Parsed (α : Type) := α × List Char

def isBlank (c : Char) : Bool := c == ' ' || c == '\t'

/-- A character that may stand in a comment or in a quoted text. -/
def isPlain (c : Char) : Bool := c == '\t' || (32 ≤ c.toNat && c.toNat ≠ 127)

/-- What follows the blanks. -/
def skipBlanks (text : List Char) : List Char := text.dropWhile isBlank

/-- What follows a line end. -/
def lineEnd? : List Char → Option (List Char)
  | '\n' :: rest => some rest
  | '\r' :: '\n' :: rest => some rest
  | _ => none

/-- What follows a comment, if there is one. -/
def skipComment : List Char → List Char
  | '#' :: rest => rest.dropWhile isPlain
  | text => text

/-- What follows the rest of a line, which holds at most a comment. -/
def finishLine? (text : List Char) : Option (List Char) :=
  match skipComment (skipBlanks text) with
  | [] => some []
  | rest => lineEnd? rest

/-- What follows blanks, comments and line ends. -/
def skipGap : Nat → List Char → List Char
  | 0, text => text
  | fuel + 1, text =>
    let rest := skipComment (skipBlanks text)
    match lineEnd? rest with
    | some rest => skipGap fuel rest
    | none => rest

/-- Reads a code of so many hexadecimal digits, which must be that of a character. -/
def codeChar? (length : Nat) (text : List Char) : Option (Parsed Char) := do
  let digits := text.take length
  if digits.length < length then none
  let code ← Text.hexNumber? digits
  if (0xd800 ≤ code && code ≤ 0xdfff) || 0x10ffff < code then none
  return (Char.ofNat code, text.drop length)

/-- Reads an escape behind its backslash. -/
def escape? : List Char → Option (Parsed Char)
  | 'b' :: rest => some ('\x08', rest)
  | 't' :: rest => some ('\t', rest)
  | 'n' :: rest => some ('\n', rest)
  | 'f' :: rest => some ('\x0c', rest)
  | 'r' :: rest => some ('\r', rest)
  | '"' :: rest => some ('"', rest)
  | '\\' :: rest => some ('\\', rest)
  | 'u' :: rest => codeChar? 4 rest
  | 'U' :: rest => codeChar? 8 rest
  | _ => none

/-- What follows blanks and line ends. -/
def skipLines : Nat → List Char → List Char
  | 0, text => text
  | fuel + 1, text =>
    let rest := skipBlanks text
    match lineEnd? rest with
    | some rest => skipLines fuel rest
    | none => rest

/-- What follows a backslash at the end of a line: all blanks and line ends are skipped. -/
def continued? (text : List Char) : Option (List Char) := do
  let rest ← lineEnd? (skipBlanks text)
  return skipLines (rest.length + 1) rest

/-- Reads a text up to its closing quote, on one line; escapes are read unless it is `literal`. -/
def quoted (quote : Char) (literal : Bool) : Nat → List Char → Option (Parsed (List Char))
  | 0, _ => none
  | _ + 1, [] => none
  | fuel + 1, c :: rest =>
    if c == quote then some ([], rest)
    else do
      let (char, rest) ← if c == '\\' && !literal then escape? rest else if isPlain c then some (c, rest) else none
      let (chars, rest) ← quoted quote literal fuel rest
      return (char :: chars, rest)

/-- Reads a text over several lines up to three closing quotes; up to two more quotes right before them belong
to the text. -/
def multiline (quote : Char) (literal : Bool) : Nat → List Char → Option (Parsed (List Char))
  | 0, _ => none
  | fuel + 1, text =>
    let quotes := (text.takeWhile (· == quote)).length
    if 3 ≤ quotes then
      if 5 < quotes then none else some (List.replicate (quotes - 3) quote, text.drop quotes)
    else
      match text, lineEnd? text with
      | _, some rest => do
        let (chars, rest) ← multiline quote literal fuel rest
        return ('\n' :: chars, rest)
      | '\\' :: rest, none =>
        if literal then do
          let (chars, rest) ← multiline quote literal fuel rest
          return ('\\' :: chars, rest)
        else match continued? rest with
          | some rest => multiline quote literal fuel rest
          | none => do
            let (char, rest) ← escape? rest
            let (chars, rest) ← multiline quote literal fuel rest
            return (char :: chars, rest)
      | c :: rest, none =>
        if c == quote || isPlain c then do
          let (chars, rest) ← multiline quote literal fuel rest
          return (c :: chars, rest)
        else none
      | [], none => none

/-- Reads a text over several lines behind its opening quotes; a line end right behind them is dropped. -/
def multilineText (quote : Char) (literal : Bool) (text : List Char) : Option (Parsed String) := do
  let text := (lineEnd? text).getD text
  let (chars, rest) ← multiline quote literal (text.length + 1) text
  return (String.ofList chars, rest)

/-- Reads a text on one line behind its opening quote. -/
def lineText (quote : Char) (literal : Bool) (text : List Char) : Option (Parsed String) := do
  let (chars, rest) ← quoted quote literal (text.length + 1) text
  return (String.ofList chars, rest)

/-- Reads a text, of either kind of quotes, on one line or over several. -/
def anyText : List Char → Option (Parsed String)
  | '"' :: '"' :: '"' :: rest => multilineText '"' false rest
  | '\'' :: '\'' :: '\'' :: rest => multilineText '\'' true rest
  | '"' :: rest => lineText '"' false rest
  | '\'' :: rest => lineText '\'' true rest
  | _ => none

def isKeyChar (c : Char) : Bool := c.isAlphanum || c == '_' || c == '-'

/-- Reads one part of a key. -/
def keyPart : List Char → Option (Parsed String)
  | '"' :: rest => lineText '"' false rest
  | '\'' :: rest => lineText '\'' true rest
  | text =>
    let chars := text.takeWhile isKeyChar
    if chars.isEmpty then none else some (String.ofList chars, text.drop chars.length)

/-- Reads a key: parts with points between them. -/
def key : Nat → List Char → Option (Parsed (List String))
  | 0, _ => none
  | fuel + 1, text => do
    let (part, rest) ← keyPart (skipBlanks text)
    match skipBlanks rest with
    | '.' :: rest =>
      let (parts, rest) ← key fuel rest
      return (part :: parts, rest)
    | rest => return ([part], rest)

/-- The number of digits in a base, with single underscores between them. -/
def digitsValue? (base : Nat) (digits : List Char) : Option Nat :=
  let valid := digits.head? ≠ some '_' && digits.getLast? ≠ some '_'
    && !(digits.zip digits.tail).contains ('_', '_') && !digits.isEmpty
  if valid then
    (digits.filter (· ≠ '_')).foldlM
      (fun n c => ((Text.hexDigitValue? c).filter (· < base)).map (n * base + ·)) 0
  else none

/-- The magnitude of a decimal number, which does not start with a zero unless it is one. -/
def decimal? (digits : List Char) : Option Nat :=
  if 1 < digits.length && digits.head? == some '0' then none else digitsValue? 10 digits

def integer? : List Char → Option Int
  | '0' :: 'x' :: digits => (digitsValue? 16 digits).map Int.ofNat
  | '0' :: 'o' :: digits => (digitsValue? 8 digits).map Int.ofNat
  | '0' :: 'b' :: digits => (digitsValue? 2 digits).map Int.ofNat
  | '-' :: digits => (decimal? digits).map fun n => -(n : Int)
  | '+' :: digits => (decimal? digits).map Int.ofNat
  | digits => (decimal? digits).map Int.ofNat

/-- The boolean or the integer of at most 64 bits that a word writes. -/
def word? (word : List Char) : Option Item :=
  if word = "true".toList then some (.bool true)
  else if word = "false".toList then some (.bool false)
  else match integer? word with
    | some n => if -0x8000000000000000 ≤ n ∧ n < 0x8000000000000000 then some (.int n) else none
    | none => none

def isWordChar (c : Char) : Bool := c.isAlphanum || c == '_' || c == '-' || c == '+' || c == '.' || c == ':'

mutual
def value : Nat → List Char → Option (Parsed Item)
  | 0, _ => none
  | fuel + 1, '[' :: rest => do
    let (items, rest) ← elements fuel rest
    return (.list items, rest)
  | fuel + 1, '\x7b' :: rest =>
    match skipBlanks rest with
    | '\x7d' :: rest => some (.inlined [], rest)
    | rest => do
      let (entries, rest) ← inlineEntries fuel [] rest
      return (.inlined entries, rest)
  | _ + 1, '"' :: rest => (anyText ('"' :: rest)).map fun (text, rest) => (.text text, rest)
  | _ + 1, '\'' :: rest => (anyText ('\'' :: rest)).map fun (text, rest) => (.text text, rest)
  | _ + 1, text =>
    let chars := text.takeWhile isWordChar
    (word? chars).map fun item => (item, text.drop chars.length)

/-- Reads the elements of an array up to its closing bracket. -/
def elements : Nat → List Char → Option (Parsed (List Item))
  | 0, _ => none
  | fuel + 1, text =>
    match skipGap text.length text with
    | ']' :: rest => some ([], rest)
    | text => do
      let (item, rest) ← value fuel text
      match skipGap rest.length rest with
      | ',' :: rest =>
        let (items, rest) ← elements fuel rest
        return (item :: items, rest)
      | ']' :: rest => return ([item], rest)
      | _ => none

/-- Reads the entries of an inline table up to its closing brace. -/
def inlineEntries : Nat → Entries → List Char → Option (Parsed Entries)
  | 0, _, _ => none
  | fuel + 1, entries, text => do
    let (name, rest) ← key (text.length + 1) text
    match rest with
    | '=' :: rest =>
      let (item, rest) ← value fuel (skipBlanks rest)
      let entries ← assign name item entries
      match skipBlanks rest with
      | ',' :: rest => inlineEntries fuel entries rest
      | '\x7d' :: rest => return (entries, rest)
      | _ => none
    | _ => none
end

/-- Reads the path of a header up to its closing brackets. -/
def header (closing : List Char) (text : List Char) : Option (Parsed (List String)) := do
  let (path, rest) ← key (text.length + 1) text
  if rest.take closing.length = closing then return (path, rest.drop closing.length) else none

/-- Reads line by line; `current` is the path of the last header. -/
def lines : Nat → List String → Entries → List Char → Option Entries
  | 0, _, _, _ => none
  | fuel + 1, current, entries, text =>
    match skipBlanks text with
    | [] => some entries
    | '[' :: '[' :: rest => do
      let (path, rest) ← header [']', ']'] rest
      lines fuel path (← openElement path entries) (← finishLine? rest)
    | '[' :: rest => do
      let (path, rest) ← header [']'] rest
      lines fuel path (← openTable path entries) (← finishLine? rest)
    | text =>
      if text.head? == some '#' || (lineEnd? text).isSome then do
        lines fuel current entries (← finishLine? text)
      else do
        let (name, rest) ← key (text.length + 1) text
        match rest with
        | '=' :: rest =>
          let (item, rest) ← value (2 * rest.length + 2) (skipBlanks rest)
          lines fuel current (← assignUnder current name item entries) (← finishLine? rest)
        | _ => none

def ofText? (text : String) : Option Entries :=
  let chars := match text.toList with
    | '\ufeff' :: rest => rest
    | chars => chars
  lines (chars.length + 1) [] [] chars

end Toml

end Schemata
