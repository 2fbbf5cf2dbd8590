import Schemata.Json.Basic

namespace Schemata

/-- A path of tokens, outermost first. -/
abbrev Pointer := List String

namespace Pointer

def escapeChar (c : Char) : List Char :=
  if c = '~' then ['~', '0'] else if c = '/' then ['~', '1'] else [c]

def escape (token : String) : String := String.ofList (token.toList.flatMap escapeChar)

/-- Reads the characters of a written token; a tilde that starts no escape stands for itself. -/
def unescapeChars : List Char → List Char
  | '~' :: '0' :: rest => '~' :: unescapeChars rest
  | '~' :: '1' :: rest => '/' :: unescapeChars rest
  | c :: rest => c :: unescapeChars rest
  | [] => []

def unescape (text : String) : String := String.ofList (unescapeChars text.toList)

def text (pointer : Pointer) : String := String.join (pointer.map fun token => "/" ++ escape token)

def splitSlashes : List Char → List (List Char)
  | [] => [[]]
  | c :: rest =>
    match splitSlashes rest with
    | [] => [[c]]
    | first :: others => if c = '/' then [] :: first :: others else (c :: first) :: others

/-- Reads a written form: empty, or with a leading slash. -/
def ofText? (text : String) : Option Pointer :=
  match text.toList with
  | [] => some []
  | '/' :: rest => some ((splitSlashes rest).map fun token => String.ofList (unescapeChars token))
  | _ => none

/-- The array index that a token writes: digits without a leading zero. -/
def index? (token : String) : Option Nat :=
  match token.toList with
  | [] => none
  | '0' :: _ :: _ => none
  | digits => if digits.all Char.isDigit then some (digits.foldl (fun n c => n * 10 + (c.toNat - 48)) 0) else none

end Pointer

namespace Json

/-- The member that a token names. -/
def member? (value : Json) (token : String) : Option Json :=
  match value with
  | .object fields => fields.lookup token
  | .array items => (Pointer.index? token).bind (items[·]?)
  | _ => none

/-- The part of the value at the end of the path. -/
def resolve? (value : Json) : Pointer → Option Json
  | [] => some value
  | token :: rest => (value.member? token).bind (·.resolve? rest)

/-- The part of the value that a written pointer names. -/
def pointer? (value : Json) (text : String) : Option Json := (Pointer.ofText? text).bind value.resolve?

end Json

end Schemata
