import Schemata.Json.Printer
import Schemata.Text.Blank
import Schemata.Text.Cut

namespace Schemata

namespace TsText

/-- A character that may start an identifier. -/
def startsIdentifier (c : Char) : Bool := c.isAlpha || c == '_' || c == '$'

def inIdentifier (c : Char) : Bool := c.isAlphanum || c == '_' || c == '$'

/-- An ASCII identifier. -/
def isIdentifier (name : String) : Bool :=
  match name.toList with
  | [] => false
  | c :: rest => startsIdentifier c && rest.all inIdentifier

/-- A key as it is written: quoted, unless it is an identifier. -/
def key (name : String) : String := if isIdentifier name then name else Json.quoted name

/-- The identifier made of a name: its words with a capital each, led by an underscore if it would start with
a digit. -/
def identifier (name : String) : String :=
  let letters := (Text.pieces (fun c => !inIdentifier c) name.toList).flatMap Text.capitalized
  match letters with
  | [] => "Anonymous"
  | c :: _ => String.ofList (if c.isDigit then '_' :: letters else letters)

/-- The text with a backslash in every end of a comment. -/
def escapeCommentEnd : List Char → List Char
  | '*' :: '/' :: rest => '*' :: '\\' :: '/' :: escapeCommentEnd rest
  | c :: rest => c :: escapeCommentEnd rest
  | [] => []

/-- A line of a comment of several lines. -/
def docLine (indent line : List Char) : List Char :=
  match Text.trimEnd line with
  | [] => indent ++ [' ', '*', '\n']
  | line => indent ++ [' ', '*', ' '] ++ line ++ ['\n']

/-- A doc comment: nothing for a blank text, one line for a text of one line. -/
def docChars (text indent : List Char) : List Char :=
  match Text.lines (escapeCommentEnd (Text.trim text)) with
  | [] => []
  | [line] => indent ++ ['/', '*', '*', ' '] ++ line ++ [' ', '*', '/', '\n']
  | lines => indent ++ ['/', '*', '*', '\n'] ++ lines.flatMap (docLine indent) ++ indent ++ [' ', '*', '/', '\n']

/-- A doc comment whose lines start with `indent`. -/
def docComment (text indent : String) : String := String.ofList (docChars text.toList indent.toList)

end TsText

end Schemata
