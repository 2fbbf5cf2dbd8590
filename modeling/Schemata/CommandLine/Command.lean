import Schemata.CommandLine.Arguments
import Schemata.CommandLine.Files
import Schemata.Decoding.Decoder
import Schemata.Document.Load
import Schemata.Document.Report
import Schemata.TypeScript.Generate

namespace Schemata

/-- Why a command fails. -/
inductive CommandError where
  | unreadableConfiguration (path : String) (error : FileError)
  | badConfiguration (path : String)
  | unsupportedFormat (path : String)
  | unreadable (path : String) (error : FileError)
  | badDocument (path : String) (error : ParseError)
  | noValidatorImport
  | badSchema (error : CompileError)
  | unknownDefinition (name : String) (available : List String)
  | badData (path : String) (error : Json.ReadError)
  | unwritable (path : String) (error : FileError)

def CommandError.message : CommandError → String
  | unreadableConfiguration path e => s!"invalid config {path}: {e.message}"
  | badConfiguration path => s!"invalid config {path}: TOML parse error"
  | unsupportedFormat path => DocumentFormat.unsupportedMessage path
  | unreadable path e => s!"failed to read {path}: {e.message}"
  | badDocument path e => e.describe path
  | noValidatorImport => TsModule.lacksValidatorMessage
  | badSchema e => e.describe
  | unknownDefinition name available =>
    let listed := String.intercalate ", " available
    s!"unknown definition `{name}` (available: {listed})"
  | badData path e => s!"invalid JSON in {path}: {e.message}"
  | unwritable path e => s!"failed to write {path}: {e.message}"

/-- What a command prints, and whether all is well. -/
structure CommandResult where
  output : String
  well : Bool := true

namespace Command

variable {m : Type → Type} [Monad m]

/-- A step of a command. -/
abbrev Step (m : Type → Type) := ExceptT CommandError m

/-- The step that an operation on files makes. -/
def fileStep {α : Type} (cause : FileError → CommandError) (operation : m (Except FileError α)) : Step m α := do
  match ← operation with
  | .ok value => return value
  | .error e => throw (cause e)

/-- The result of a computation. -/
def require {α ε : Type} (cause : ε → CommandError) : Except ε α → Step m α
  | .ok value => return value
  | .error e => throw (cause e)

/-- The file that holds the configuration when no other is named. -/
def configurationFile : String := "schemagen.toml"

def readConfiguration (files : FileAccess m) (path : String) : Step m Configuration := do
  let text ← fileStep (.unreadableConfiguration path) (files.read path)
  match Configuration.ofToml? text with
  | some configuration => return configuration
  | none => throw (.badConfiguration path)

/-- The configuration of the named file, else of the usual file if it is there, else the default. -/
def loadConfiguration (files : FileAccess m) : Option String → Step m Configuration
  | some path => readConfiguration files path
  | none => do
    if ← files.isFile configurationFile then readConfiguration files configurationFile else return {}

/-- The format that is asked for, else the one that the path names. -/
def formatOf (source : Source) : Except CommandError DocumentFormat :=
  match source.format.or (DocumentFormat.ofPath? source.path) with
  | some format => .ok format
  | none => .error (.unsupportedFormat source.path)

def loadDocument (files : FileAccess m) (source : Source) : Step m Document := do
  let format ← require id (formatOf source)
  let text ← fileStep (.unreadable source.path) (files.read source.path)
  require (.badDocument source.path) (Document.read text format)

/-- Writes a file, and makes the directories around it. -/
def writeOutput (files : FileAccess m) (path text : String) : Step m Unit := do
  match parentPath? path with
  | some parent => fileStep (.unwritable path) (files.makeDirectories parent)
  | none => pure ()
  fileStep (.unwritable path) (files.write path text)

/-- Generates a module into a file. -/
def generate (files : FileAccess m) (source : Source) (output : String) (overrides : Overrides) :
    Step m CommandResult := do
  let configuration := overrides.apply (← loadConfiguration files source.configuration)
  let set := SchemaSet.ofDocument (← loadDocument files source) configuration.normalize
  match TsModule.ofSet? set configuration.generator with
  | none => throw .noValidatorImport
  | some generated =>
    writeOutput files output (configuration.formatter.format configuration.format generated.text)
    return { output := s!"Generated {set.definitions.length} definitions into {output}\n" }

/-- Checks the value of a file against a definition. -/
def validate (files : FileAccess m) (library : SchemaLibrary) (source : Source) (definition data : String) :
    Step m CommandResult := do
  let configuration ← loadConfiguration files source.configuration
  let set := SchemaSet.ofDocument (← loadDocument files source) configuration.normalize
  match (DecoderSet.compile library set).find? definition with
  | none => throw (.unknownDefinition definition (Table.keys set.definitions))
  | some (.error e) => throw (.badSchema e)
  | some (.ok decoder) =>
    let text ← fileStep (.unreadable data) (files.read data)
    let value ← require (.badData data) (Json.read text)
    let verdict := decoder.validate Shape.value value
    return { output := (verdict.toJson id).pretty ++ "\n", well := verdict.isSuccess }

/-- Reports on a document. -/
def inspect (files : FileAccess m) (source : Source) : Step m CommandResult := do
  let configuration ← loadConfiguration files source.configuration
  let document ← loadDocument files source
  let set := SchemaSet.ofDocument document configuration.normalize
  return { output := Report.text document set, well := Report.clean document set }

def run (files : FileAccess m) (library : SchemaLibrary) : Request → m (Except CommandError CommandResult)
  | .generate source output overrides => (generate files source output overrides).run
  | .validate source definition data => (validate files library source definition data).run
  | .inspect source => (inspect files source).run

/-- The name and the version of the program. -/
def versionText : String := "schemagen 0.1.0\n"

/-- The exit code of a result: zero when all is well. -/
def exitCode : Except CommandError CommandResult → UInt32
  | .ok result => if result.well then 0 else 1
  | .error _ => 1

end Command

end Schemata
