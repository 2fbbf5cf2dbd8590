import Schemata.Text.Percent
import Schemata.Yaml.Cursor

namespace Schemata

namespace Yaml

/-- Blanks and line ends between two parts of a scalar. -/
structure Gap where
  /-- The blanks before the first line end. -/
  spaces : List Char := []
  /-- There was a line end. -/
  broken : Bool := false
  /-- The text of the first line end. -/
  first : List Char := []
  /-- The texts of the other line ends. -/
  others : List Char := []

namespace Gap

/-- The text that a gap stands for. -/
def text (gap : Gap) : List Char :=
  if !gap.broken then gap.spaces
  else if gap.first = ['\n'] then if gap.others.isEmpty then [' '] else gap.others
  else gap.first ++ gap.others

/-- Reads blanks and line ends. A tab within the first `indent` columns of a further line is an error. -/
def read (indent : Int) : Nat → Gap → Cursor → Option (Gap × Cursor)
  | 0, gap, c => some (gap, c)
  | fuel + 1, gap, c =>
    match c.peek with
    | none => some (gap, c)
    | some char =>
      if isBlank char then
        if gap.broken && (c.column : Int) < indent && char == '\t' then none
        else
          let gap := if gap.broken then gap else { gap with spaces := gap.spaces ++ [char] }
          read indent fuel gap (c.skip 1)
      else if isBreak char then
        let (text, c) := c.skipLine
        let gap := if gap.broken then { gap with others := gap.others ++ text }
          else { gap with spaces := [], first := text, broken := true }
        read indent fuel gap c
      else some (gap, c)

end Gap

namespace Plain

/-- The brackets and the comma, which end a plain scalar inside a flow collection. -/
def isFlowMark (c : Char) : Bool := c == ',' || c == '[' || c == ']' || c == '\x7b' || c == '\x7d'

/-- The visible characters up to a blank or to a mark that ends a plain scalar; inside a flow collection a colon
right before a bracket or a comma is an error. -/
def run (flow : Bool) : List Char → Option (List Char)
  | [] => some []
  | c :: rest =>
    if isBlank c || isBreak c then some []
    else if flow && c == ':' && (rest.head?.map fun d => isFlowMark d || d == '?').getD false then none
    else if c == ':' && rest.head?.all (fun d => isBlank d || isBreak d) then some []
    else if flow && isFlowMark c then some []
    else (run flow rest).map (c :: ·)

/-- Reads the parts of a plain scalar. The answer says whether the text ended behind a line end. -/
def parts (flow : Bool) (indent : Int) : Nat → List Char → Gap → Cursor → Option (List Char × Bool × Cursor)
  | 0, _, _, _ => none
  | fuel + 1, text, gap, c => do
    if c.seesDocumentMarker || c.sees '#' then return (text, gap.broken, c)
    let chars ← run flow c.rest
    let (text, gap) := if chars.isEmpty then (text, gap) else (text ++ gap.text ++ chars, {})
    let c := c.skip chars.length
    if !c.seesAny (fun char => isBlank char || isBreak char) then return (text, gap.broken, c)
    let (gap, c) ← gap.read indent (c.rest.length + 1) c
    if !flow && (c.column : Int) < indent then return (text, gap.broken, c)
    parts flow indent fuel text gap c

/-- Reads a plain scalar whose lines must be indented deeper than `indent`. -/
def read (flow : Bool) (indent : Int) (c : Cursor) : Option (List Char × Bool × Cursor) :=
  parts flow (indent + 1) (c.rest.length + 1) [] {} c

end Plain

namespace Quoted

/-- The character of a code of so many hexadecimal digits. -/
def codeChar? (length : Nat) (rest : List Char) : Option Char := do
  let digits := rest.take length
  if digits.length < length then none
  let code ← Text.hexNumber? digits
  if (0xd800 ≤ code && code ≤ 0xdfff) || 0x10ffff < code then none
  return Char.ofNat code

/-- The character of an escape and how many characters it takes, the backslash among them. -/
def escape? : List Char → Option (Char × Nat)
  | [] => none
  | c :: rest =>
    match c with
    | '0' => some ('\x00', 2)
    | 'a' => some ('\x07', 2)
    | 'b' => some ('\x08', 2)
    | 't' => some ('\t', 2)
    | '\t' => some ('\t', 2)
    | 'n' => some ('\n', 2)
    | 'v' => some ('\x0b', 2)
    | 'f' => some ('\x0c', 2)
    | 'r' => some ('\r', 2)
    | 'e' => some ('\x1b', 2)
    | ' ' => some (' ', 2)
    | '"' => some ('"', 2)
    | '/' => some ('/', 2)
    | '\\' => some ('\\', 2)
    | 'N' => some ('\u0085', 2)
    | '_' => some ('\u00a0', 2)
    | 'L' => some ('\u2028', 2)
    | 'P' => some ('\u2029', 2)
    | 'x' => (codeChar? 2 rest).map (·, 4)
    | 'u' => (codeChar? 4 rest).map (·, 6)
    | 'U' => (codeChar? 8 rest).map (·, 10)
    | _ => none

/-- Reads visible characters up to the closing quote, a blank or an escaped line end; the answer says whether it
was an escaped line end. -/
def run (single : Bool) : Nat → List Char → Cursor → Option (List Char × Bool × Cursor)
  | 0, _, _ => none
  | fuel + 1, text, c =>
    match c.rest with
    | [] => some (text, false, c)
    | char :: rest =>
      if isBlank char || isBreak char then some (text, false, c)
      else if single then
        if char == '\'' then
          if rest.head? == some '\'' then run single fuel (text ++ ['\'']) (c.skip 2) else some (text, false, c)
        else run single fuel (text ++ [char]) (c.skip 1)
      else if char == '"' then some (text, false, c)
      else if char == '\\' then
        if (rest.head?.map isBreak).getD false then some (text, true, (c.skip 1).skipLine.2)
        else match escape? rest with
          | none => none
          | some (escaped, length) => run single fuel (text ++ [escaped]) (c.skip length)
      else run single fuel (text ++ [char]) (c.skip 1)

/-- Reads the parts of a quoted scalar, behind its opening quote. -/
def parts (single : Bool) : Nat → List Char → Cursor → Option (List Char × Cursor)
  | 0, _, _ => none
  | fuel + 1, text, c => do
    if c.seesDocumentMarker || c.rest.isEmpty then none
    let (text, escapedBreak, c) ← run single (c.rest.length + 1) text c
    if c.sees (if single then '\'' else '"') then return (text, c.skip 1)
    let (gap, c) ← Gap.read 0 (c.rest.length + 1) { broken := escapedBreak } c
    parts single fuel (text ++ gap.text) c

def read (single : Bool) (c : Cursor) : Option (List Char × Cursor) :=
  let c := c.skip 1
  parts single (c.rest.length + 1) [] c

end Quoted

namespace Block

/-- What the head of a block scalar says: how its end is kept (`some true` all of it, `some false` none of it),
and its indentation. -/
structure Head where
  keep : Option Bool := none
  indent : Nat := 0

/-- The way in which the end is kept, if it is said here. -/
def keepMark (c : Cursor) : Option Bool :=
  if c.sees '+' then some true else if c.sees '-' then some false else none

/-- The indentation, if it is said here; it must not be zero. -/
def indentMark (c : Cursor) : Option (Nat × Cursor) :=
  match c.peek with
  | some d => if d.isDigit then if d == '0' then none else some (d.toNat - 48, c.skip 1) else some (0, c)
  | none => some (0, c)

/-- Reads the head, up to the first line. -/
def readHead (c : Cursor) : Option (Head × Cursor) := do
  let keep := keepMark c
  let (indent, c) ← indentMark (if keep.isSome then c.skip 1 else c)
  let late := if keep.isNone && indent ≠ 0 then keepMark c else none
  let c ← (if late.isSome then c.skip 1 else c).finishLine?
  return ({ keep := keep.or late, indent }, c)

/-- Reads empty lines and the indentation of the next line. An indentation of zero is not known yet; then the
widest line decides, but never less than one column more than the parent's `outer`. -/
def breaks (outer : Int) : Nat → Nat → Nat → List Char → Cursor → Option (Nat × List Char × Cursor)
  | 0, _, _, _, _ => none
  | fuel + 1, indent, widest, text, c =>
    let c := (c.skip (((c.rest.takeWhile (· == ' ')).take
      (if indent = 0 then c.rest.length else indent - c.column)).length))
    let widest := max widest c.column
    if (indent = 0 || c.column < indent) && c.sees '\t' then none
    else if c.seesAny isBreak then
      let (lineEnd, c) := c.skipLine
      breaks outer fuel indent widest (text ++ lineEnd) c
    else
      let found := if indent = 0 then max (max widest (outer + 1).toNat) 1 else indent
      some (found, text, c)

/-- Reads the lines of a block scalar: `first` is the text of the line end before this line, `others` that of
the empty lines after it, and `blank` tells that the line before started with a blank. -/
def lines (literal : Bool) (outer : Int) (indent : Nat) :
    Nat → List Char → List Char → List Char → Bool → Cursor → Option (List Char × List Char × List Char × Cursor)
  | 0, _, _, _, _, _ => none
  | fuel + 1, text, first, others, blank, c =>
    if c.column = indent && !c.rest.isEmpty then do
      let startsBlank := c.seesAny isBlank
      let folded := !literal && first == ['\n'] && !blank && !startsBlank
      let joint := if folded then if others.isEmpty then [' '] else [] else first
      let (chars, c) := c.skipWhile fun char => !isBreak char
      let (first, c) := c.skipLine
      let (_, after, c) ← breaks outer (c.rest.length + 1) indent 0 [] c
      lines literal outer indent fuel (text ++ joint ++ others ++ chars) first after startsBlank c
    else some (text, first, others, c)

/-- Reads a block scalar whose parent is indented by `outer`. -/
def read (literal : Bool) (outer : Int) (c : Cursor) : Option (List Char × Cursor) := do
  let (head, c) ← readHead (c.skip 1)
  let known := if head.indent = 0 then 0 else (if 0 ≤ outer then outer.toNat else 0) + head.indent
  let (indent, others, c) ← breaks outer (c.rest.length + 1) known 0 [] c
  let (text, first, others, c) ← lines literal outer indent (c.rest.length + 1) [] [] others false c
  let lineEnd := if head.keep = some false then [] else first
  let tail := if head.keep = some true then others else []
  return (text ++ lineEnd ++ tail, c)

end Block

end Yaml

end Schemata
