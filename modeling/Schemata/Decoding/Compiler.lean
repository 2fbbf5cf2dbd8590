import Schemata.Json.Basic
import Schemata.Text.Cut

namespace Schemata

/-- A constraint that a value breaks: the path into the value, the keyword that says so, and the words of the library. -/
structure Violation where
  /-- A JSON pointer, empty for the whole value. -/
  path : String
  keyword : String
  message : String

/-- The path, where the whole value is the root, then the message and the keyword. -/
def Violation.summary (v : Violation) : String :=
  let shown := if v.path.isEmpty then "root" else v.path
  s!"at {shown}: {v.message} ({v.keyword})"

/-- A schema that is refused. -/
structure CompileError where
  name : String
  message : String

def CompileError.describe (e : CompileError) : String := s!"failed to compile validator for {e.name}: {e.message}"

/-- Every violation of a schema by a value, in order. -/
abbrev CompiledCheck := Json → List Violation

/-- Makes checks of values from the schemas of definitions. -/
structure ValidatorCompiler where
  compile : String → Json → Except CompileError CompiledCheck

/-- What a schema library says about a value that breaks a schema. -/
structure SchemaError where
  instancePath : String
  schemaPath : String
  message : String

/-- A library for schemas of draft 7: it builds the check of a document, or says what is wrong with the document. -/
structure SchemaLibrary where
  build : Json → Except String (Json → List SchemaError)

/-- The last part of a schema path that is neither empty nor a number. -/
def keywordOf (schemaPath : String) : String :=
  let segments := Text.pieces (· = '/') schemaPath.toList
  ((segments.reverse.find? fun segment => !segment.isEmpty && !segment.all Char.isDigit).map String.ofList).getD "schema"

/-- The violation that an error of the library stands for. -/
def SchemaError.violation (e : SchemaError) : Violation := ⟨e.instancePath, keywordOf e.schemaPath, e.message⟩

/-- The compiler that asks a library. -/
def SchemaLibrary.compiler (library : SchemaLibrary) : ValidatorCompiler where
  compile name schema :=
    match library.build schema with
    | .ok check => .ok fun value => (check value).map SchemaError.violation
    | .error message => .error ⟨name, message⟩

end Schemata
