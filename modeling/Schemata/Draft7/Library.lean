import Schemata.Decoding.Compiler
import Schemata.Draft7.Check
import Schemata.Draft7.MetaSchema

namespace Schemata

namespace Draft7

/-- Why a schema is refused. -/
inductive SchemaFault where
  | shape (finding : Finding)
  | reference (error : ReferenceError)
  | pattern (text : String)

def SchemaFault.message : SchemaFault → String
  | .shape finding => finding.message
  | .reference error => error.message
  | .pattern text => Json.quoted text ++ " is not a \"regex\""

/-- What a check of a node uses besides the values of its keywords. -/
inductive CheckNeed where
  | pattern (text : String)
  | schema (schema : Json)

namespace CheckNeed

/-- What the patterns of a node need. -/
def ofPatterns (schemas : Table Json) : List CheckNeed :=
  schemas.flatMap fun (text, value) => [.pattern text, .schema value]

def ofSchemas (schemas : List Json) : List CheckNeed := schemas.map CheckNeed.schema

def ofTable (schemas : Table Json) : List CheckNeed := ofSchemas (schemas.map (·.2))

/-- What one keyword of a node needs, given the keywords beside it. -/
def ofKeyword (beside : Table Json) (keyword : String) (value : Json) : List CheckNeed :=
  match keyword, value with
  | "pattern", .string text => [.pattern text]
  | "properties", .object schemas => if Keyword.takesOver beside then [] else ofTable schemas
  | "patternProperties", .object schemas => if Keyword.takesOver beside then [] else ofPatterns schemas
  | "additionalProperties", value =>
    if Keyword.takesOver beside then
      ofPatterns (Keyword.patternSchemas beside) ++ ofTable (Keyword.propertySchemas beside) ++ [.schema value]
    else []
  | "items", .array schemas => ofSchemas schemas
  | "items", value => [.schema value]
  | "additionalItems", value => if ((beside.lookup "items").bind Json.array?).isSome then [.schema value] else []
  | "dependencies", .object schemas => ofSchemas ((schemas.map (·.2)).filter fun schema => schema.array?.isNone)
  | "if", value =>
    let branches := [beside.lookup "then", beside.lookup "else"].filterMap id
    if branches.isEmpty then [] else ofSchemas (value :: branches)
  | "allOf", .array schemas => ofSchemas schemas
  | "anyOf", .array schemas => ofSchemas schemas
  | "oneOf", .array schemas => ofSchemas schemas
  | "contains", value => [.schema value]
  | "propertyNames", value => [.schema value]
  | "not", value => [.schema value]
  | _, _ => []

/-- What all keywords of a node need. -/
def ofFields (fields : Table Json) : List CheckNeed :=
  fields.flatMap fun (keyword, value) => ofKeyword fields keyword value

end CheckNeed

namespace SchemaFault

/-- The places of references that were followed. -/
abbrev Followed := List Pointer

/-- Looks for a fault in several needs, in order; `visit` looks into a schema. -/
def searchAll (visit : Json → Followed → Except SchemaFault Followed) :
    List CheckNeed → Followed → Except SchemaFault Followed
  | [], followed => .ok followed
  | .pattern text :: rest, followed =>
    if (Pattern.ofText? text).isNone then .error (.pattern text) else searchAll visit rest followed
  | .schema schema :: rest, followed => do
    searchAll visit rest (← visit schema followed)

/-- Looks for a fault in what a check of the schema can reach, for as many nested steps as `fuel` allows. -/
def search (document : Json) : Nat → Json → Followed → Except SchemaFault Followed
  | 0, _, followed => .ok followed
  | fuel + 1, .object fields, followed =>
    match fields.lookup "$ref" with
    | some (.string written) =>
      match Target.resolve document written with
      | .error e => .error (.reference e)
      | .ok target =>
        if followed.contains target.place then .ok followed
        else search document fuel target.schema (target.place :: followed)
    | _ => searchAll (search document fuel) (CheckNeed.ofFields fields) followed
  | _ + 1, .bool _, followed => .ok followed
  | _ + 1, value, _ => .error (.shape ⟨[], [], value, .wrongType [.boolean, .object]⟩)

/-- The first fault of a schema. -/
def find? (schema : Json) : Option SchemaFault :=
  match (findings MetaSchema.root schema).head? with
  | some finding => some (.shape finding)
  | none =>
    match search schema ((schema.size + 1) * (schema.size + 1)) schema [[]] with
    | .error fault => some fault
    | .ok _ => none

end SchemaFault

/-- A library to run the program with. It knows no other documents, and of the formats only `regex`; nothing that is said
about decoders rests on it. -/
def library : SchemaLibrary where
  build schema :=
    match SchemaFault.find? schema with
    | none => .ok fun value =>
      (findings schema value).map fun finding => ⟨finding.path.text, finding.place.text, finding.message⟩
    | some fault => .error fault.message

end Draft7

end Schemata
