import Schemata.Json.Basic

namespace Schemata

namespace Draft7

namespace MetaSchema

/-- A schema with one keyword. -/
def only (keyword : String) (value : Json) : Json := .object [(keyword, value)]

def ofType (name : String) : Json := only "type" (.string name)

/-- A reference to one of the definitions. -/
def shared (name : String) : Json := only "$ref" (.string ("#/definitions/" ++ name))

/-- Any schema. -/
def schema : Json := only "$ref" (.string "#")

/-- An object of schemas by name. -/
def schemaTable : Json := .object [("type", .string "object"), ("additionalProperties", schema)]

def texts (names : List String) : Json := .array (names.map .string)

/-- What the other parts share. -/
def definitions : Json := .object [
  ("schemaArray", .object [("type", .string "array"), ("minItems", .ofNat 1), ("items", schema)]),
  ("nonNegativeInteger", .object [("type", .string "integer"), ("minimum", .ofNat 0)]),
  ("nonNegativeIntegerDefault0", only "allOf" (.array [shared "nonNegativeInteger", only "default" (.ofNat 0)])),
  ("simpleTypes", only "enum" (texts ["array", "boolean", "integer", "null", "number", "object", "string"])),
  ("stringArray", .object [("type", .string "array"), ("items", ofType "string"), ("uniqueItems", .bool true),
    ("default", .array [])])]

/-- What each keyword holds. -/
def keywords : Table Json := [
  ("$id", ofType "string"), ("$schema", ofType "string"), ("$ref", ofType "string"), ("$comment", ofType "string"),
  ("title", ofType "string"), ("description", ofType "string"), ("default", .bool true),
  ("readOnly", ofType "boolean"), ("examples", .object [("type", .string "array"), ("items", .bool true)]),
  ("multipleOf", .object [("type", .string "number"), ("exclusiveMinimum", .ofNat 0)]),
  ("maximum", ofType "number"), ("exclusiveMaximum", ofType "number"),
  ("minimum", ofType "number"), ("exclusiveMinimum", ofType "number"),
  ("maxLength", shared "nonNegativeInteger"), ("minLength", shared "nonNegativeIntegerDefault0"),
  ("pattern", .object [("type", .string "string"), ("format", .string "regex")]), ("additionalItems", schema),
  ("items", only "anyOf" (.array [schema, shared "schemaArray"])),
  ("maxItems", shared "nonNegativeInteger"), ("minItems", shared "nonNegativeIntegerDefault0"),
  ("uniqueItems", ofType "boolean"), ("contains", schema),
  ("maxProperties", shared "nonNegativeInteger"), ("minProperties", shared "nonNegativeIntegerDefault0"),
  ("required", shared "stringArray"), ("additionalProperties", schema),
  ("definitions", schemaTable), ("properties", schemaTable),
  ("patternProperties", .object [("type", .string "object"), ("additionalProperties", schema),
    ("propertyNames", only "format" (.string "regex"))]),
  ("dependencies", .object [("type", .string "object"),
    ("additionalProperties", only "anyOf" (.array [schema, shared "stringArray"]))]),
  ("propertyNames", schema), ("const", .bool true), ("enum", .object [("type", .string "array"), ("items", .bool true)]),
  ("type", only "anyOf" (.array [shared "simpleTypes", .object [("type", .string "array"),
    ("items", shared "simpleTypes"), ("minItems", .ofNat 1), ("uniqueItems", .bool true)]])),
  ("format", ofType "string"), ("contentMediaType", ofType "string"), ("contentEncoding", ofType "string"),
  ("if", schema), ("then", schema), ("else", schema),
  ("allOf", shared "schemaArray"), ("anyOf", shared "schemaArray"), ("oneOf", shared "schemaArray"),
  ("not", schema)]

/-- The schema of all schemas. -/
def root : Json := .object [
  ("definitions", definitions), ("type", texts ["object", "boolean"]), ("properties", .object keywords)]

end MetaSchema

end Draft7

end Schemata
