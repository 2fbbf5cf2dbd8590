import Schemata.Json.Kind
import Schemata.Json.Shape

namespace Schemata

/-- Which passes run, and on which documents. -/
structure NormalizeSettings where
  /-- Complete `const` by `type` and `enum`. -/
  constKeyword : Bool := true
  /-- Make `prefixItems` positional `items`. -/
  tuples : Bool := true
  /-- Make conditionals choices. -/
  conditionals : Bool := true
  /-- Add the definitions of webhooks. -/
  webhooks : Bool := true
  /-- Make `nullable` an alternative. -/
  nullable : Bool := true
  /-- Run the passes for version 3.1 on every document. -/
  treatAsOpenApi31 : Bool := false
  /-- Run the passes for version 3.1 only where that version is declared. -/
  fallbackToOpenApi30 : Bool := true
deriving DecidableEq

/-- What a generated module holds besides types. -/
structure GeneratorSettings where
  /-- A decoder for every definition. -/
  decoders : Bool := true
  /-- The module that the validator comes from. -/
  validatorImport : String := "ajv"
  /-- A comment at the top. -/
  banner : Option String := none
deriving DecidableEq

/-- The look of a generated module. -/
structure FormatStyle where
  /-- Blanks for each level. -/
  indentWidth : Nat := 2
  /-- End in exactly one line break. -/
  trailingNewline : Bool := true
deriving DecidableEq

/-- A flag of a record. -/
def Shape.Field.flag {α : Type} (name : String) (set : α → Bool → α) : Shape.Field α :=
  { name, put := fun record value => (Shape.bool value).map (set record) }

namespace NormalizeSettings

def record : Shape.Record NormalizeSettings where
  name := "NormalizeConfig"
  fields := [
    .flag "const-keyword" fun s b => { s with constKeyword := b },
    .flag "tuples" fun s b => { s with tuples := b },
    .flag "conditionals" fun s b => { s with conditionals := b },
    .flag "webhooks" fun s b => { s with webhooks := b },
    .flag "nullable" fun s b => { s with nullable := b },
    .flag "treat-as-openapi31" fun s b => { s with treatAsOpenApi31 := b },
    .flag "fallback-to-openapi30" fun s b => { s with fallbackToOpenApi30 := b }]

def ofJson : ShapeReader NormalizeSettings := record.read {}

def toJson (s : NormalizeSettings) : Json := .object [
  ("const-keyword", .bool s.constKeyword), ("tuples", .bool s.tuples), ("conditionals", .bool s.conditionals),
  ("webhooks", .bool s.webhooks), ("nullable", .bool s.nullable),
  ("treat-as-openapi31", .bool s.treatAsOpenApi31), ("fallback-to-openapi30", .bool s.fallbackToOpenApi30)]

end NormalizeSettings

namespace GeneratorSettings

def record : Shape.Record GeneratorSettings where
  name := "GeneratorOptions"
  fields := [
    .flag "decoders" fun s b => { s with decoders := b },
    { name := "validator-import", put := fun s value => do return { s with validatorImport := ← Shape.text value } },
    { name := "banner", put := fun s value => do return { s with banner := ← Shape.optional Shape.text value } }]

def ofJson : ShapeReader GeneratorSettings := record.read {}

def toJson (s : GeneratorSettings) : Json := .object [
  ("decoders", .bool s.decoders), ("validator-import", .string s.validatorImport),
  ("banner", (s.banner.map Json.string).getD .null)]

end GeneratorSettings

namespace FormatStyle

def record : Shape.Record FormatStyle where
  name := "FormatStyle"
  fields := [
    { name := "indent-width", put := fun s value => do return { s with indentWidth := ← Shape.size value } },
    .flag "trailing-newline" fun s b => { s with trailingNewline := b }]

def ofJson : ShapeReader FormatStyle := record.read {}

def toJson (s : FormatStyle) : Json :=
  .object [("indent-width", ((Number.ofInt? s.indentWidth).map Json.number).getD .null),
    ("trailing-newline", .bool s.trailingNewline)]

end FormatStyle

def TypeTag.ofJson : ShapeReader TypeTag := fun value => do
  let name ← Shape.variant (TypeTag.all.map TypeTag.name) value
  return (TypeTag.ofName? name).getD .null

end Schemata
