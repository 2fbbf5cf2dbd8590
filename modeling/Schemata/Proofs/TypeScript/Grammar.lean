import Mathlib.Data.List.Forall2
import Mathlib.Data.Option.Basic
import Schemata.Json.Reader
import Schemata.TypeScript.Emit

namespace Schemata

/-- A part at the front of a text, and the text behind it. -/
abbrev Reader (α : Type) := List Char → Option (α × List Char)

namespace TsGrammar

variable {α : Type}

/-- The text behind a mark. -/
def mark? (mark : Char) (text : List Char) : Option (List Char) :=
  match Json.skipBlanks text with
  | [] => none
  | c :: rest => if c = mark then some rest else none

/-- Up to so many parts, each behind a mark. -/
def following (mark : Char) (part : Reader α) : Nat → Reader (List α)
  | 0, text => some ([], text)
  | bound + 1, text =>
    match mark? mark text with
    | none => some ([], text)
    | some rest => do
      let first ← part rest
      let others ← following mark part bound first.2
      return (first.1 :: others.1, others.2)

/-- Parts with a mark between them. -/
def separated (mark : Char) (part : Reader α) : Reader (List α) := fun text => do
  let first ← part text
  let others ← following mark part first.2.length first.2
  return (first.1 :: others.1, others.2)

/-- A text in quotes, after the opening one. -/
def quoted : Reader String := fun text => (Json.readString text).toOption

/-- The first character of a written number. -/
def startsNumeral (c : Char) : Bool := c.isDigit || c == '-'

/-- A character of a written number. -/
def inNumeral (c : Char) : Bool := c.isDigit || c == '-' || c == '.'

/-- The literal of a written number: an integer, if that is written so, else a floating-point number. -/
def literalOfNumeral? (numeral : List Char) : Option Literal :=
  match (Extended.exponent? numeral).filter fun value => (toString value).toList = numeral with
  | some value => some (.int value)
  | none => (Extended.ofText? (String.ofList numeral)).map .number

def numeral : Reader TsType := fun text =>
  (literalOfNumeral? (text.takeWhile inNumeral)).map fun value => (.literal value, text.dropWhile inNumeral)

def identifier : Reader String := fun text =>
  let name := String.ofList (text.takeWhile TsText.inIdentifier)
  if TsText.isIdentifier name then some (name, text.dropWhile TsText.inIdentifier) else none

/-- The type that a word stands for. -/
def ofWord (word : String) : TsType :=
  if word = "string" then .primitive .string
  else if word = "number" then .primitive .number
  else if word = "boolean" then .primitive .boolean
  else if word = "null" then .primitive .null
  else if word = "unknown" then .primitive .unknown
  else if word = "never" then .primitive .never
  else if word = "true" then .literal (.bool true)
  else if word = "false" then .literal (.bool false)
  else .ref word

/-- The words that do not name a definition. -/
def keywords : List String :=
  ["string", "number", "boolean", "null", "unknown", "never", "true", "false", "Record"]

section

variable (inner : Reader TsType)

/-- The types of the keys and the values of a record, after its name. -/
def recordTypes : Reader TsType := fun text => do
  let key ← inner (← mark? '<' text)
  let value ← inner (← mark? ',' key.2)
  let rest ← mark? '>' value.2
  return (.record key.1 value.1, rest)

def word : Reader TsType := fun text => do
  let name ← identifier text
  if name.1 = "Record" then recordTypes inner name.2 else return (ofWord name.1, name.2)

/-- A position of a tuple, or all positions from there on. -/
inductive Position where
  | item (type : TsType)
  | rest (element : TsType)

def position : Reader Position := fun text =>
  match Text.after? ['.', '.', '.'] (Json.skipBlanks text) with
  | none => (inner text).map fun type => (.item type.1, type.2)
  | some text => do
    let type ← inner text
    match type.1 with
    | .array element => return (.rest element, type.2)
    | _ => none

/-- The items of a tuple, and the type of all others, which has to come last. -/
def tupleParts? : List Position → Option (List TsType × Option TsType)
  | [] => some ([], none)
  | .item type :: positions => (tupleParts? positions).map fun parts => (type :: parts.1, parts.2)
  | [.rest element] => some ([], some element)
  | .rest _ :: _ :: _ => none

/-- A tuple, after the opening bracket. -/
def tuple : Reader TsType := fun text =>
  match mark? ']' text with
  | some rest => some (.tuple [] none, rest)
  | none => do
    let positions ← separated ',' (position inner) text
    let parts ← tupleParts? positions.1
    let rest ← mark? ']' positions.2
    return (.tuple parts.1 parts.2, rest)

def key : Reader String := fun text =>
  match mark? '"' text with
  | some rest => quoted rest
  | none => identifier (Json.skipBlanks text)

def property : Reader Property := fun text => do
  let name ← key text
  let asked := mark? '?' name.2
  let type ← inner (← mark? ':' (asked.getD name.2))
  return ({ name := name.1, type := type.1, isOptional := asked.isSome }, type.2)

/-- An object type, after the opening brace. -/
def object : Reader TsType := fun text =>
  match mark? '\x7d' text with
  | some rest => some (.object [], rest)
  | none => do
    let properties ← separated ';' (property inner) text
    let rest ← mark? '\x7d' properties.2
    return (.object properties.1, rest)

/-- A type in parentheses, after the opening one. -/
def parenthesis : Reader TsType := fun text => do
  let type ← inner text
  let rest ← mark? ')' type.2
  return (type.1, rest)

def atom : Reader TsType := fun text =>
  match Json.skipBlanks text with
  | [] => none
  | c :: rest =>
    if c = '"' then (quoted rest).map fun value => (.literal (.string value.1), value.2)
    else if c = '[' then tuple inner rest
    else if c = '\x7b' then object inner rest
    else if c = '(' then parenthesis inner rest
    else if startsNumeral c then numeral (c :: rest)
    else word inner (c :: rest)

/-- The type with the brackets that follow it. -/
def brackets (element : TsType) : List Char → TsType × List Char
  | '[' :: ']' :: rest => brackets (.array element) rest
  | rest => (element, rest)

def operand : Reader TsType := fun text => (atom inner text).map fun element => brackets element.1 element.2

/-- Types under an operator; one alone needs none. -/
def combined (join : List TsType → TsType) : List TsType → TsType
  | [type] => type
  | types => join types

def intersection : Reader TsType := fun text =>
  (separated '&' (operand inner) text).map fun types => (combined .intersection types.1, types.2)

def union : Reader TsType := fun text =>
  (separated '|' (intersection inner) text).map fun types => (combined .union types.1, types.2)

end

/-- A type in which atoms are nested less than `depth` deep. -/
def type : Nat → Reader TsType
  | 0, _ => none
  | depth + 1, text => union (type depth) text

end TsGrammar

/-- The type that a text writes; nothing is nested deeper than the text is long. -/
def TsType.parse? (text : String) : Option TsType :=
  (TsGrammar.type (text.length + 1) text.toList).bind fun type =>
    if Json.skipBlanks type.2 = [] then some type.1 else none

/-- Equal, or an integer and a floating-point number that are written with the same digits. -/
inductive Literal.Alike : Literal → Literal → Prop
  | refl (value : Literal) : Alike value value
  | digits {value : Int} {number : Extended} (same : toString value = number.toPlainText) :
      Alike (.int value) (.number number)

namespace TsType

mutual
/-- The same type, but for the descriptions of properties, the kind of numbers that are written with the same digits, and
the type `null`, which stands for the literal, too. -/
inductive Alike : TsType → TsType → Prop
  | primitive (kind : Primitive) : Alike (.primitive kind) (.primitive kind)
  | null : Alike (.primitive .null) (.literal .null)
  | literal {a b : Literal} (alike : a.Alike b) : Alike (.literal a) (.literal b)
  | array {a b : TsType} (element : Alike a b) : Alike (.array a) (.array b)
  | tuple {items items' : List TsType} {rest rest' : Option TsType} (each : List.Forall₂ Alike items items')
      (others : Option.Rel Alike rest rest') : Alike (.tuple items rest) (.tuple items' rest')
  | union {members members' : List TsType} (each : List.Forall₂ Alike members members') :
      Alike (.union members) (.union members')
  | intersection {members members' : List TsType} (each : List.Forall₂ Alike members members') :
      Alike (.intersection members) (.intersection members')
  | object {properties properties' : List Property} (each : List.Forall₂ AlikeProperty properties properties') :
      Alike (.object properties) (.object properties')
  | record {key key' value value' : TsType} (keys : Alike key key') (values : Alike value value') :
      Alike (.record key value) (.record key' value')
  | ref (name : String) : Alike (.ref name) (.ref name)

inductive AlikeProperty : Property → Property → Prop
  | intro {name : String} {a b : TsType} {isOptional : Bool} {doc doc' : Option String} (type : Alike a b) :
      AlikeProperty ⟨name, a, isOptional, doc⟩ ⟨name, b, isOptional, doc'⟩
end

end TsType

end Schemata
