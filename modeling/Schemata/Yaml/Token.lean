import Schemata.Yaml.Scalar

namespace Schemata

namespace Yaml

inductive Token where
  | streamEnd
  | version (major minor : Nat)
  | tagHandle (handle start : String)
  | documentStart
  | documentEnd
  | blockSequenceStart
  | blockMappingStart
  | blockEnd
  | flowSequenceStart
  | flowSequenceEnd
  | flowMappingStart
  | flowMappingEnd
  | blockEntry
  | flowEntry
  | key
  | value
  | alias (name : String)
  | anchor (name : String)
  | tag (handle suffix : String)
  | scalar (text : String) (plain : Bool)
deriving DecidableEq

/-- A place where a key may start. -/
structure PossibleKey where
  /-- In block style a scalar at the indentation of its mapping must be a key. -/
  required : Bool
  /-- How many tokens stand before it. -/
  token : Nat
  line : Nat
  column : Nat
  index : Nat

/-- The state of the scanner. -/
structure Scanner where
  cursor : Cursor
  tokens : Array Token := #[]
  /-- The column of the innermost block collection; -1 outside. -/
  indent : Int := -1
  /-- The columns of the collections around it. -/
  indents : List Int := []
  /-- The possible keys, one place for each flow collection around, the innermost first. -/
  keys : List (Option PossibleKey) := [none]
  /-- A key may start here. -/
  keyAllowed : Bool := true
  finished : Bool := false

namespace Scanner

/-- Inside a flow collection. -/
def inFlow (s : Scanner) : Bool := 1 < s.keys.length

def push (s : Scanner) (token : Token) : Scanner := { s with tokens := s.tokens.push token }

/-- Moves on by so many characters. -/
def skip (s : Scanner) (n : Nat) : Scanner := { s with cursor := s.cursor.skip n }

/-- Puts the innermost possible key. -/
def setKey (s : Scanner) (key : Option PossibleKey) : Scanner := { s with keys := key :: s.keys.drop 1 }

/-- The innermost possible key. -/
def currentKey (s : Scanner) : Option PossibleKey := s.keys.head?.join

/-- Forgets the innermost possible key, which must not be required. -/
def dropKey (s : Scanner) : Option Scanner :=
  if (s.currentKey.map (·.required)).getD false then none else some (s.setKey none)

/-- Remembers that a key may start here. -/
def saveKey (s : Scanner) : Option Scanner :=
  if s.keyAllowed then do
    let s ← s.dropKey
    let c := s.cursor
    return s.setKey (some ⟨!s.inFlow && s.indent == c.column, s.tokens.size, c.line, c.column, c.index⟩)
  else some s

/-- A key ends on its line and within 1024 characters. -/
def isStale (c : Cursor) (key : PossibleKey) : Bool := key.line < c.line || key.index + 1024 < c.index

/-- Forgets the possible keys that are stale; none of them may be required. -/
def dropStaleKeys (s : Scanner) : Option Scanner := do
  let keys ← s.keys.mapM fun key =>
    match key with
    | some k => if isStale s.cursor k then if k.required then none else some none else some (some k)
    | none => some none
  return { s with keys }

/-- Opens a block collection at a column deeper than the present one; its token goes to the given place. -/
def roll (s : Scanner) (column : Nat) (place : Nat) (token : Token) : Scanner :=
  if s.inFlow || (column : Int) ≤ s.indent then s
  else { s with indents := s.indent :: s.indents, indent := column, tokens := s.tokens.insertIdxIfInBounds place token }

/-- Closes the block collections that are deeper than a column, given the columns around them. -/
def unrollFrom (column : Int) (s : Scanner) : List Int → Scanner
  | [] => { s with indents := [] }
  | outer :: rest =>
    if column < s.indent then unrollFrom column { s.push .blockEnd with indent := outer } rest
    else { s with indents := outer :: rest }

/-- Closes the block collections that are deeper than a column. -/
def unroll (s : Scanner) (column : Int) : Scanner := if s.inFlow then s else unrollFrom column s s.indents

/-- Skips blanks, comments and line ends. A tab does not count as a blank where a key may start in block
style. -/
def skipGap : Nat → Scanner → Scanner
  | 0, s => s
  | fuel + 1, s =>
    let c := if s.cursor.column == 0 && s.cursor.sees '\ufeff' then s.cursor.skip 1 else s.cursor
    let c := (c.skipWhile fun char => char == ' ' || ((s.inFlow || !s.keyAllowed) && char == '\t')).2
    let c := c.skipComment
    if c.seesAny isBreak then
      skipGap fuel { s with cursor := c.skipLine.2, keyAllowed := !s.inFlow || s.keyAllowed }
    else { s with cursor := c }

/-- The end of the text. -/
def fetchEnd (s : Scanner) : Option Scanner := do
  let s ← (s.unroll (-1)).dropKey
  return { s.push .streamEnd with keyAllowed := false, finished := true }

/-- A marker that starts or ends a document. -/
def fetchMarker (s : Scanner) (token : Token) : Option Scanner := do
  let s ← (s.unroll (-1)).dropKey
  return { (s.push token).skip 3 with keyAllowed := false }

/-- An opening bracket. -/
def fetchOpening (s : Scanner) (token : Token) : Option Scanner := do
  let s ← s.saveKey
  return { (s.push token).skip 1 with keys := none :: s.keys, keyAllowed := true }

/-- A closing bracket. -/
def fetchClosing (s : Scanner) (token : Token) : Option Scanner := do
  let s ← s.dropKey
  let keys := if s.inFlow then s.keys.drop 1 else s.keys
  return { (s.push token).skip 1 with keys, keyAllowed := false }

/-- A comma between the entries of a flow collection. -/
def fetchFlowEntry (s : Scanner) : Option Scanner := do
  let s ← s.dropKey
  return { (s.push .flowEntry).skip 1 with keyAllowed := true }

/-- The hyphen before an entry of a block sequence. -/
def fetchBlockEntry (s : Scanner) : Option Scanner := do
  if !s.inFlow && !s.keyAllowed then none
  let s ← (s.roll s.cursor.column s.tokens.size .blockSequenceStart).dropKey
  return { (s.push .blockEntry).skip 1 with keyAllowed := true }

/-- The question mark before a key. -/
def fetchKey (s : Scanner) : Option Scanner := do
  if !s.inFlow && !s.keyAllowed then none
  let s ← (s.roll s.cursor.column s.tokens.size .blockMappingStart).dropKey
  return { (s.push .key).skip 1 with keyAllowed := !s.inFlow }

/-- The colon before a value. What stands before it is the key, if a key was possible there. -/
def fetchValue (s : Scanner) : Option Scanner :=
  match s.currentKey with
  | some key =>
    let s := { s with tokens := s.tokens.insertIdxIfInBounds key.token .key }
    let s := (s.roll key.column key.token .blockMappingStart).setKey none
    some { (s.push .value).skip 1 with keyAllowed := false }
  | none => do
    if !s.inFlow && !s.keyAllowed then none
    let s := s.roll s.cursor.column s.tokens.size .blockMappingStart
    return { (s.push .value).skip 1 with keyAllowed := !s.inFlow }

/-- The name of an anchor or alias. -/
def fetchAnchor (s : Scanner) (token : String → Token) : Option Scanner := do
  let s ← s.saveKey
  let (name, c) := (s.cursor.skip 1).skipWhile isWord
  let ends := c.blankOrEndAt 0 || c.seesAny fun d => "?:,]\x7d%@`".toList.contains d
  if name.isEmpty || !ends then none
  return { s.push (token (String.ofList name)) with cursor := c, keyAllowed := false }

/-- A character of a tag. -/
def inTag (verbatim : Bool) (c : Char) : Bool :=
  isWord c || ";/?:@&=+$.!~*'()".toList.contains c || (verbatim && ",[]".toList.contains c)

/-- The byte that a percent escape at the start of the text writes. -/
def percentByte? : List Char → Option UInt8
  | '%' :: a :: b :: _ => do
    let high ← Text.hexDigitValue? a
    let low ← Text.hexDigitValue? b
    return (high * 16 + low).toUInt8
  | _ => none

/-- How many bytes a character takes whose first byte is this one. -/
def encodedLength? (byte : UInt8) : Option Nat :=
  if byte < 0x80 then some 1
  else if 0xc0 ≤ byte && byte < 0xe0 then some 2
  else if 0xe0 ≤ byte && byte < 0xf0 then some 3
  else if 0xf0 ≤ byte && byte < 0xf8 then some 4
  else none

/-- The further bytes of a character, each as a percent escape. -/
def furtherBytes : Nat → List Char → Option (List UInt8)
  | 0, _ => some []
  | n + 1, text => do
    let byte ← percentByte? text
    if byte < 0x80 || 0xc0 ≤ byte then none
    return byte :: (← furtherBytes n (text.drop 3))

/-- The character that percent escapes write, and how many of them there are. -/
def percentChar? (text : List Char) : Option (Char × Nat) := do
  let first ← percentByte? text
  let length ← encodedLength? first
  let others ← furtherBytes (length - 1) (text.drop 3)
  let decoded ← String.fromUTF8? ⟨(first :: others).toArray⟩
  return (← decoded.toList.head?, length)

/-- Reads the characters of a tag. -/
def tagText (verbatim : Bool) : Nat → List Char → Cursor → Option (List Char × Cursor)
  | 0, text, c => some (text, c)
  | fuel + 1, text, c =>
    match c.peek with
    | none => some (text, c)
    | some char =>
      if char == '%' then
        match percentChar? c.rest with
        | none => none
        | some (decoded, length) => tagText verbatim fuel (text ++ [decoded]) (c.skip (3 * length))
      else if inTag verbatim char then tagText verbatim fuel (text ++ [char]) (c.skip 1)
      else some (text, c)

/-- Reads the characters of a tag; there must be some. -/
def tagText? (verbatim : Bool) (c : Cursor) : Option (List Char × Cursor) := do
  let (text, c) ← tagText verbatim (c.rest.length + 1) [] c
  if text.isEmpty then none
  return (text, c)

/-- A handle: an exclamation mark, then word characters, and another exclamation mark if there is one. -/
def handle (c : Cursor) : List Char × Cursor :=
  let (word, c) := (c.skip 1).skipWhile isWord
  if c.sees '!' then ('!' :: word ++ ['!'], c.skip 1) else ('!' :: word, c)

/-- The handle and the rest of a tag. -/
def tagParts (c : Cursor) : Option (List Char × List Char × Cursor) :=
  if c.peekAt 1 == some '<' then do
    let (text, c) ← tagText? true (c.skip 2)
    if !c.sees '>' then none
    return ([], text, c.skip 1)
  else
    let (start, after) := handle c
    if 2 ≤ start.length && start.getLast? == some '!' then do
      let (text, c) ← tagText? false after
      return (start, text, c)
    else do
      let (text, c) ← tagText false (after.rest.length + 1) (start.drop 1) after
      return if text.isEmpty then ([], ['!'], c) else (['!'], text, c)

def fetchTag (s : Scanner) : Option Scanner := do
  let s ← s.saveKey
  let (start, text, c) ← tagParts s.cursor
  if !(c.blankOrEndAt 0 || (s.inFlow && c.sees ',')) then none
  return { s.push (.tag (String.ofList start) (String.ofList text)) with cursor := c, keyAllowed := false }

def fetchBlockScalar (s : Scanner) (literal : Bool) : Option Scanner := do
  let s ← s.dropKey
  let (text, c) ← Block.read literal s.indent s.cursor
  return { s.push (.scalar (String.ofList text) false) with cursor := c, keyAllowed := true }

def fetchQuoted (s : Scanner) (single : Bool) : Option Scanner := do
  let s ← s.saveKey
  let (text, c) ← Quoted.read single s.cursor
  return { s.push (.scalar (String.ofList text) false) with cursor := c, keyAllowed := false }

def fetchPlain (s : Scanner) : Option Scanner := do
  let s ← s.saveKey
  let (text, broken, c) ← Plain.read s.inFlow s.indent s.cursor
  return { s.push (.scalar (String.ofList text) true) with cursor := c, keyAllowed := broken }

/-- A number of a version, of at most nine digits. -/
def versionNumber? (c : Cursor) : Option (Nat × Cursor) :=
  let (digits, c) := c.skipWhile Char.isDigit
  if digits.isEmpty || 9 < digits.length then none
  else some (digits.foldl (fun n d => n * 10 + (d.toNat - 48)) 0, c)

/-- The version that a directive declares. -/
def versionDirective (c : Cursor) : Option (Token × Cursor) := do
  let (major, c) ← versionNumber? (c.skipWhile isBlank).2
  if !c.sees '.' then none
  let (minor, c) ← versionNumber? (c.skip 1)
  return (.version major minor, c)

/-- The handle that a directive declares. -/
def tagDirective (c : Cursor) : Option (Token × Cursor) := do
  let c := (c.skipWhile isBlank).2
  if !c.sees '!' then none
  let (start, c) := handle c
  if 2 ≤ start.length && start.getLast? != some '!' then none
  if !c.seesAny isBlank then none
  let (text, c) ← tagText? true (c.skipWhile isBlank).2
  if !c.blankOrEndAt 0 then none
  return (.tagHandle (String.ofList start) (String.ofList text), c)

def fetchDirective (s : Scanner) : Option Scanner := do
  let s ← (s.unroll (-1)).dropKey
  let (name, c) := (s.cursor.skip 1).skipWhile isWord
  if !c.blankOrEndAt 0 then none
  let (token, c) ← match String.ofList name with
    | "YAML" => versionDirective c
    | "TAG" => tagDirective c
    | _ => none
  return { s.push token with cursor := ← c.finishLine?, keyAllowed := false }

/-- The characters that cannot start a plain scalar. -/
def indicators : List Char := "-?:,[]\x7b\x7d#&*!|>'\"%@`".toList

/-- The token that starts with a character. -/
def fetchAt (s : Scanner) (c : Cursor) (char : Char) : Option Scanner :=
  if c.column == 0 && char == '%' then s.fetchDirective
  else if c.seesMarker '-' then s.fetchMarker .documentStart
  else if c.seesMarker '.' then s.fetchMarker .documentEnd
  else if char == '[' then s.fetchOpening .flowSequenceStart
  else if char == '\x7b' then s.fetchOpening .flowMappingStart
  else if char == ']' then s.fetchClosing .flowSequenceEnd
  else if char == '\x7d' then s.fetchClosing .flowMappingEnd
  else if char == ',' then s.fetchFlowEntry
  else if char == '-' && c.blankOrEndAt 1 then s.fetchBlockEntry
  else if char == '?' && (s.inFlow || c.blankOrEndAt 1) then s.fetchKey
  else if char == ':' && (s.inFlow || c.blankOrEndAt 1) then s.fetchValue
  else if char == '*' then s.fetchAnchor .alias
  else if char == '&' then s.fetchAnchor .anchor
  else if char == '!' then s.fetchTag
  else if char == '|' && !s.inFlow then s.fetchBlockScalar true
  else if char == '>' && !s.inFlow then s.fetchBlockScalar false
  else if char == '\'' then s.fetchQuoted true
  else if char == '"' then s.fetchQuoted false
  else if !(isBlank char || indicators.contains char) || (char == '-' && !((c.peekAt 1).map isBlank).getD false)
      || (!s.inFlow && (char == '?' || char == ':') && !c.blankOrEndAt 1) then s.fetchPlain
  else none

def fetch (s : Scanner) : Option Scanner := do
  let s ← (skipGap (s.cursor.rest.length + 1) s).dropStaleKeys
  match s.cursor.peek with
  | none => ({ s with cursor := { s.cursor with column := 0, line := s.cursor.line + 1 } }).fetchEnd
  | some char => (s.unroll s.cursor.column).fetchAt s.cursor char

/-- Reads tokens up to the end of the text. -/
def run : Nat → Scanner → Option (Array Token)
  | 0, _ => none
  | fuel + 1, s => if s.finished then some s.tokens else s.fetch.bind (run fuel)

end Scanner

def Token.scan (text : String) : Option (List Token) :=
  let chars := text.toList
  if chars.all isAllowed then (Scanner.run (chars.length + 2) { cursor := { rest := chars } }).map Array.toList
  else none

end Yaml

end Schemata
