import Schemata.Document.Basic
import Schemata.Document.Format
import Schemata.Json.Reader
import Schemata.Yaml.Anchor
import Schemata.Yaml.Conversion

namespace Schemata

/-- Why a text is not a document. -/
inductive ParseError where
  | json (error : Json.ReadError)
  | yaml
  | conversion (error : Yaml.ConversionError)

namespace Document

def readValue (text : String) : DocumentFormat → Except ParseError Json
  | .json =>
    match Json.read text with
    | .ok value => .ok value
    | .error e => .error (.json e)
  | .yaml =>
    match Yaml.Value.ofText text with
    | none => .error .yaml
    | some value =>
      match value.toJson with
      | .ok value => .ok value
      | .error e => .error (.conversion e)

def read (text : String) (format : DocumentFormat) : Except ParseError Document :=
  (readValue text format).map ofJson

end Document

/-- The wording of a parse error, when it is the library's own. -/
def ParseError.message? : ParseError → Option String
  | .json e => some e.message
  | .yaml => none
  | .conversion e => some e.message

/-- The message for a document that cannot be read, under the name of where it comes from. -/
def ParseError.describe (error : ParseError) (origin : String) : String :=
  s!"failed to parse {origin}: " ++ error.message?.getD "not a YAML document"

end Schemata
