import Schemata.Schema.Children
import Schemata.Schema.Walk

namespace Schemata

/-- A malformed place: where it is and what is wrong. -/
structure Issue where
  pointer : Pointer
  reason : String
deriving DecidableEq

/-- The wording of an issue; the place of the whole schema is a slash. -/
def Issue.message (issue : Issue) : String :=
  let place := if issue.pointer.isEmpty then "/" else issue.pointer.text
  s!"malformed schema node at {place}: {issue.reason}"

/-- The malformed value of a slot. -/
def Slot.malformed? {α : Type} : Slot α → Option Json
  | .valid _ => none
  | .malformed value => some value

namespace NodeOf

/-- The keywords of the wrong shape: name, expected shape and value, in the order of the report. -/
def malformedKeywords (n : Node) : List (String × String × Json) :=
  let slot {α : Type} (key expected : String) (value : Option (Slot α)) : List (String × String × Json) :=
    match value.bind Slot.malformed? with
    | some value => [(key, expected, value)]
    | none => []
  slot "type" "a string or an array of strings" n.types
    ++ slot "enum" "an array" n.enum
    ++ slot "properties" "an object" n.properties
    ++ slot "required" "an array of strings" n.required
    ++ slot "$ref" "a string" n.reference
    ++ slot "nullable" "a boolean" n.nullable
    ++ slot "allOf" "an array of schemas" n.allOf
    ++ slot "anyOf" "an array of schemas" n.anyOf
    ++ slot "oneOf" "an array of schemas" n.oneOf
    ++ slot "prefixItems" "an array of schemas" n.prefixItems

end NodeOf

namespace Schema

/-- The malformed places of the uppermost `levels` levels of a schema that stands at `pointer`. -/
def issuesWithin : Nat → Pointer → Schema → List Issue
  | _, _, .bool _ => []
  | _, pointer, .malformed value =>
    [⟨pointer, s!"expected a schema object or boolean, found {value.kindPhrase}"⟩]
  | 0, _, .node _ => []
  | levels + 1, pointer, .node n =>
    (n.malformedKeywords.map fun (key, expected, value) =>
      ⟨pointer ++ [key], s!"`{key}` must be {expected}, found {value.kindPhrase}"⟩)
      ++ (n.children .auxiliary).flatMap fun (step, child) => issuesWithin levels (pointer ++ step) child

/-- Every malformed place of the schema, each node's keywords before its subschemas. -/
def issues (schema : Schema) : List Issue := issuesWithin schema.height [] schema

end Schema

end Schemata
