import Schemata.Decoding.Compiler
import Schemata.Decoding.Verdict
import Schemata.Document.Normalize

namespace Schemata

/-- The message of a failure with its violations. -/
def failureMessage (name : String) (violations : List Violation) : String :=
  name ++ ": " ++ String.intercalate "; " (violations.map Violation.summary)

/-- A decoder of a definition: it checks a value, and then reads it as a value of some type. -/
structure Decoder where
  name : String
  check : CompiledCheck

namespace Decoder

variable {α : Type}

/-- The decoder that a compiler makes from the schema of a definition. -/
def compile (compiler : ValidatorCompiler) (name : String) (schema : Json) : Except CompileError Decoder :=
  (compiler.compile name schema).map (Decoder.mk name)

/-- Decodes a value: its violations make the error, and only a value without any is read. -/
def decode (decoder : Decoder) (read : ShapeReader α) (value : Json) : Except String α :=
  match decoder.check value with
  | [] =>
    match read value with
    | .ok data => .ok data
    | .error e => .error s!"{decoder.name}: at root: {e.message} (deserialize)"
  | violations => .error (failureMessage decoder.name violations)

/-- Decodes a value into a verdict. -/
def validate (decoder : Decoder) (read : ShapeReader α) (value : Json) : Verdict α :=
  .ofExcept (decoder.decode read value)

end Decoder

/-- The definitions with a decoder, and those whose schema was refused. -/
structure DecoderSet where
  decoders : Table Decoder := []
  failures : Table CompileError := []

namespace DecoderSet

/-- Puts down what became of a definition. -/
def record (decoders : DecoderSet) (name : String) : Except CompileError Decoder → DecoderSet
  | .ok decoder => { decoders with decoders := Table.insert decoders.decoders name decoder }
  | .error e => { decoders with failures := Table.insert decoders.failures name e }

/-- The definition as a schema of its own, which a compiler is given. -/
def standalone (set : SchemaSet) (name : String) : Except CompileError Json :=
  match set.standalone? name with
  | some schema => .ok schema
  | none => .error ⟨name, "definition not found"⟩

/-- What a compiler makes of a definition. -/
def compiled (compiler : ValidatorCompiler) (set : SchemaSet) (name : String) : Except CompileError Decoder :=
  (standalone set name).bind (Decoder.compile compiler name)

/-- The decoders of a set of definitions, one definition after the other. -/
def compileWith (compiler : ValidatorCompiler) (set : SchemaSet) : DecoderSet :=
  (Table.keys set.definitions).foldl (fun decoders name => decoders.record name (compiled compiler set name)) {}

/-- The decoders that a schema library makes. -/
def compile (library : SchemaLibrary) (set : SchemaSet) : DecoderSet := compileWith library.compiler set

/-- The decoder of a definition, or why there is none; nothing for a name that is no definition. -/
def find? (decoders : DecoderSet) (name : String) : Option (Except CompileError Decoder) :=
  match decoders.decoders.lookup name with
  | some decoder => some (.ok decoder)
  | none => (decoders.failures.lookup name).map .error

end DecoderSet

end Schemata
