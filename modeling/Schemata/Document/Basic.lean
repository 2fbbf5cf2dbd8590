import Schemata.Json.Pointer
import Schemata.Naming
import Schemata.Schema.Reader

namespace Schemata

/-- The specification that a document follows. -/
inductive SpecVersion where
  | swagger2
  | openApi30
  | openApi31
  | jsonSchema
deriving DecidableEq

namespace SpecVersion

/-- The name in reports. -/
def label : SpecVersion → String
  | .swagger2 => "swagger-2.0"
  | .openApi30 => "openapi-3.0"
  | .openApi31 => "openapi-3.1"
  | .jsonSchema => "json-schema"

/-- The keywords of version 3.1 have their meaning. -/
def is31 : SpecVersion → Bool
  | .openApi31 => true
  | .jsonSchema => true
  | _ => false

/-- The version text of the key `openapi`: a text, or a number as it is written. -/
def declared? (document : Json) : Option String :=
  match document.get? "openapi" with
  | some (.string version) => some version
  | some (.number version) => some version.text
  | _ => none

def detect (document : Json) : SpecVersion :=
  match declared? document with
  | some version =>
    if Text.startsWith version "3." && !Text.startsWith version "3.0" then .openApi31 else .openApi30
  | none => if (document.get? "swagger").isSome then .swagger2 else .jsonSchema

end SpecVersion

/-- A document with its version and its named schemas, in order. -/
structure Document where
  raw : Json
  version : SpecVersion
  definitions : Table Schema

namespace Document

/-- The root keys that hold definitions. -/
def definitionKeys : List String := ["$defs", "definitions"]

/-- The root keys that describe the document and ask nothing of values. -/
def metadataKeys : List String := ["$schema", "$id", "id", "$comment", "title", "description"]

/-- The schema at the root, without the blocks of definitions; nothing when the root is only the place where
they stand. -/
def rootSchema? (raw : Json) : Option Schema :=
  match raw with
  | .bool value => some (.bool value)
  | .object fields =>
    let root := fields.filter fun (key, _) => !definitionKeys.contains key
    let constrains := root.any fun (key, _) => !metadataKeys.contains key
    let bare := fields.all fun (key, _) => metadataKeys.contains key
    if constrains || bare then some (Schema.ofJson (.object root)) else none
  | _ => none

/-- The value that holds the named schemas: the first of three places that is present. -/
def namedPlace? (raw : Json) : Option Json :=
  ((raw.resolve? ["components", "schemas"]).or (raw.get? "definitions")).or (raw.get? "$defs")

/-- The named schemas. -/
def named (raw : Json) : Table Schema :=
  ((namedPlace? raw).bind Json.object?).elim [] fun fields => Table.mapValues Schema.ofJson fields

/-- The name that the root asks for. -/
def rootTitle (raw : Json) : String :=
  match (raw.get? "title").bind Json.string? with
  | some title => if title.isEmpty then "Root" else title
  | none => "Root"

/-- The definitions of a document: the root of a plain schema first, under a name of its own. -/
def definitionsOf (raw : Json) (version : SpecVersion) : Table Schema :=
  let named := named raw
  if version = .jsonSchema then
    match rootSchema? raw with
    | some root => ((NameAllocator.reserving (Table.keys named)).freeName (rootTitle raw), root) :: named
    | none => named
  else named

def ofJson (raw : Json) : Document :=
  let version := SpecVersion.detect raw
  ⟨raw, version, definitionsOf raw version⟩

/-- The map of webhooks; null when there is none. -/
def webhooks (document : Document) : Json := (document.raw.get? "webhooks").getD .null

end Document

end Schemata
