import Schemata.Document.Normalize
import Schemata.TypeScript.Convert
import Schemata.TypeScript.Emit

namespace Schemata

/-- The names of what is generated for a definition. -/
structure Binding where
  typeName : String
  schemaName : String
  decoderName : String
deriving DecidableEq

namespace Binding

/-- The type names that a module declares or relies on itself. -/
def reservedTypes : List String :=
  ["Ajv", "Decoder", "ErrorObject", "Record", "ValidationResult", "SchemaDefinitions"]

/-- The value names that a module declares or relies on itself. -/
def reservedValues : List String :=
  ["Ajv", "ajv", "createDecoder", "describeErrors", "Error", "SchemaDefinitions"]

/-- Gives names to definitions, in order. -/
def allocate (types values : NameAllocator) : List String → List (String × Binding)
  | [] => []
  | name :: rest =>
    let (typeName, types) := types.allocate (TsText.identifier name)
    let (schemaName, values) := values.allocate (typeName ++ "Schema")
    let (decoderName, values) := values.allocate (typeName ++ "Decoder")
    (name, ⟨typeName, schemaName, decoderName⟩) :: allocate types values rest

/-- The names for a list of definitions. -/
def table (names : List String) : Table Binding :=
  Table.insertAll [] (allocate (.reserving reservedTypes) (.reserving reservedValues) names)

end Binding

namespace TsModule

/-- The types that decoders are described by. -/
def contractCode : String := String.intercalate "\n" [
  "export type ValidationResult<T> =",
  "  | \x7b success: true; data: T \x7d",
  "  | \x7b success: false; message: string \x7d;",
  "",
  "export interface Decoder<T> \x7b",
  "  readonly name: string;",
  "  /** Returns the typed value, or throws an Error carrying the failure message. */",
  "  decode(input: unknown): T;",
  "  /** Never throws. */",
  "  validate(input: unknown): ValidationResult<T>;",
  "\x7d"]

/-- The code that makes decoders. -/
def decoderCode : String := String.intercalate "\n" [
  "const ajv = new Ajv(\x7b allErrors: true, strict: false \x7d);",
  "",
  "function describeErrors(name: string, errors: ErrorObject[] | null | undefined): string \x7b",
  "  const details = (errors ?? []).map(",
  "    (error) => `at $\x7berror.instancePath || \"root\"\x7d: $\x7berror.message ?? \"is invalid\"\x7d ($\x7berror.keyword\x7d)`,",
  "  );",
  "  return `$\x7bname\x7d: $\x7bdetails.join(\"; \")\x7d`;",
  "\x7d",
  "",
  "export function createDecoder<T>(name: string, schema: unknown): Decoder<T> \x7b",
  "  const check = ajv.compile<T>(\x7b definitions: SchemaDefinitions, allOf: [schema] \x7d);",
  "  const validate = (input: unknown): ValidationResult<T> =>",
  "    check(input)",
  "      ? \x7b success: true, data: input \x7d",
  "      : \x7b success: false, message: describeErrors(name, check.errors) \x7d;",
  "  return \x7b",
  "    name,",
  "    validate,",
  "    decode(input: unknown): T \x7b",
  "      const result = validate(input);",
  "      if (!result.success) \x7b",
  "        throw new Error(result.message);",
  "      \x7d",
  "      return result.data;",
  "    \x7d,",
  "  \x7d;",
  "\x7d"]

/-- The imports of the validator. -/
def validatorImports (source : String) : List ImportDeclaration :=
  [{ standard := some "Ajv", source }, { names := [{ name := "ErrorObject" }], source, typeOnly := true }]

/-- The constant that holds a schema. -/
def schemaConst (binding : Binding) (schema : Schema) : ConstDeclaration :=
  { name := binding.schemaName, value := .json schema.toJson }

/-- The constant that holds a decoder. -/
def decoderConst (name : String) (binding : Binding) : ConstDeclaration :=
  { name := binding.decoderName
    type := some (.ref ("Decoder<" ++ binding.typeName ++ ">"))
    value := .call (.identifier "createDecoder") [.ref binding.typeName]
      [.literal (.string name), .identifier binding.schemaName] }

/-- The table of all schemas. -/
def schemaTable (bindings : Table Binding) : ConstDeclaration :=
  { name := "SchemaDefinitions"
    type := some (TsType.stringRecord .unknown)
    value := .object (Table.mapValues (fun binding => .identifier binding.schemaName) bindings) }

/-- The declarations of one definition. -/
def definitionItems (bindings : Table Binding) : String × Schema → List ModuleItem
  | (name, schema) =>
    match bindings.lookup name with
    | none => []
    | some binding =>
      [.type (TypeDeclaration.ofSchema (Table.mapValues Binding.typeName bindings) binding.typeName schema),
        .const (schemaConst binding schema)]

/-- There is no module to import the validator from. -/
def lacksValidator (settings : GeneratorSettings) : Bool :=
  settings.decoders && (Text.trim settings.validatorImport.toList).isEmpty

/-- The module of a set; nothing when decoders are asked for and the validator's module has no name. -/
def ofSet? (set : SchemaSet) (settings : GeneratorSettings) : Option TsModule :=
  if lacksValidator settings then none
  else
    let bindings := Binding.table (Table.keys set.definitions)
    let declarations := set.definitions.flatMap (definitionItems bindings) ++ [.const (schemaTable bindings)]
    some <| if settings.decoders then
      { banner := settings.banner
        imports := validatorImports settings.validatorImport
        items := .code contractCode :: declarations
          ++ .code decoderCode :: bindings.map fun (name, binding) => .const (decoderConst name binding) }
    else { banner := settings.banner, items := declarations }

/-- The wording of the error that there is no module to import the validator from. -/
def lacksValidatorMessage : String :=
  "code generation failed: validator import must not be empty when decoders are enabled"

end TsModule

end Schemata
