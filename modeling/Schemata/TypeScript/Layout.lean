import Schemata.Settings
import Schemata.Text.Blank

namespace Schemata

namespace FormatStyle

/-- A line with its indentation in the style's width and without blanks at its end. -/
def line (style : FormatStyle) (text : List Char) : List Char :=
  let leading := (text.takeWhile (· == ' ')).length
  match Text.trimEnd (text.dropWhile (· == ' ')) with
  | [] => []
  | content => List.replicate (leading / 2 * style.indentWidth + leading % 2) ' ' ++ content

/-- The text without line feeds at its end. -/
def body (text : List Char) : List Char := Text.dropEndWhile (· == '\n') text

/-- The end of the text in the style's way. -/
def settleEnd (style : FormatStyle) (source text : List Char) : List Char :=
  if style.trailingNewline then if (body text).isEmpty then [] else body text ++ ['\n']
  else if source.getLast? = some '\n' then text
  else body text

def formatChars (style : FormatStyle) (source : List Char) : List Char :=
  style.settleEnd source ((Text.lines source).flatMap fun text => style.line text ++ ['\n'])

def format (style : FormatStyle) (source : String) : String := String.ofList (style.formatChars source.toList)

end FormatStyle

/-- What is done to the layout of a generated module. -/
inductive Formatter where
  | identity
  | indent
deriving DecidableEq, Inhabited

namespace Formatter

/-- The name in settings. -/
def name : Formatter → String
  | identity => "identity"
  | indent => "indent"

def ofName? (name : String) : Option Formatter := [identity, indent].find? (·.name == name)

def format (formatter : Formatter) (style : FormatStyle) (source : String) : String :=
  match formatter with
  | identity => source
  | indent => style.format source

end Formatter

end Schemata
