import Schemata.Json.Pointer
import Schemata.Naming
import Schemata.Schema.Reader

namespace Schemata

namespace Webhook

/-- The keys of a webhook that name an operation. -/
def methods : List String := ["get", "put", "post", "delete", "options", "head", "patch", "trace"]

/-- The keys of a payload that carry no schema. -/
def metadataKeys : List String := ["description", "headers", "links"]

/-- The starts of references to shared payloads. -/
def sharedStarts : List String := ["#/components/requestBodies/", "#/components/responses/"]

/-- A chain of so many references in a row is taken to be endless. -/
def maxHops : Nat := 32

/-- The reference of a payload that stands for a shared one. -/
def sharedReference? (payload : Json) : Option String :=
  match (payload.get? "$ref").bind Json.string? with
  | some reference => if sharedStarts.any (Text.startsWith reference) then some reference else none
  | none => none

/-- The payload at the end of a chain of at most `hops - 1` references; nothing when one leads nowhere or the
chain goes on. -/
def followShared (document : Json) : Nat → Json → Option Json
  | 0, _ => none
  | hops + 1, payload =>
    match sharedReference? payload with
    | none => some payload
    | some reference => ((Text.dropStart? "#" reference).bind document.pointer?).bind (followShared document hops)

/-- The payload that a payload or its references stand for. -/
def resolvePayload (document payload : Json) : Option Json := followShared document maxHops payload

/-- The media type whose schema counts: JSON, else the first that ends in `+json`, else the first. -/
def preferredMedia (content : Table Json) : Option Json :=
  (content.lookup "application/json").or
    (((content.find? fun (name, _) => Text.startsWith (String.ofList name.toList.reverse) "nosj+").or
      content.head?).map (·.2))

/-- The schema in the content of a payload. -/
def mediaSchema? (content : Json) : Option Schema := do
  let media ← preferredMedia (← content.object?)
  return Schema.ofJson (← media.get? "schema")

/-- An entry of a payload that says nothing of its schema. -/
def isMetadata : String × Json → Bool
  | (key, value) => metadataKeys.contains key || (key == "required" && match value with
    | .bool _ => true
    | _ => false)

/-- The schema of a payload: that of its content, else the payload itself when it says more than metadata. -/
def payloadSchema? (payload : Json) : Option Schema :=
  match payload with
  | .bool value => some (.bool value)
  | .object fields =>
    match fields.lookup "content" with
    | some content => mediaSchema? content
    | none => if fields.all isMetadata then none else some (Schema.ofJson payload)
  | _ => none

/-- An object node with the given properties. -/
def objectNode (properties : Table Schema) : Node :=
  { types := some (.valid (.single "object")), properties := some (.valid properties) }

/-- The request body of an operation with its schema, when there is one. -/
def requestBody? (document : Json) (operation : Table Json) : Option (Json × Schema) := do
  let body ← resolvePayload document (← operation.lookup "requestBody")
  return (body, ← payloadSchema? body)

/-- The schemas of the responses by status, when the operation lists responses. -/
def responses? (document : Json) (operation : Table Json) : Option (Table Schema) :=
  ((operation.lookup "responses").bind Json.object?).map fun responses =>
    responses.filterMap fun (status, response) =>
      ((resolvePayload document response).bind payloadSchema?).map (status, ·)

/-- The body says that it must be present. -/
def isRequired (body : Json) : Bool :=
  match body.get? "required" with
  | some (.bool value) => value
  | _ => false

/-- A text entry of the operation. -/
def textEntry (operation : Table Json) (key : String) : Table Json :=
  match operation.lookup key with
  | some (.string text) => [(key, .string text)]
  | _ => []

def definition (document : Json) (webhook method : String) (operation : Table Json) : Schema :=
  let body := requestBody? document operation
  let properties :=
    (match body with
      | some (_, schema) => [("requestBody", schema)]
      | none => [])
    ++ (match responses? document operation with
      | some table => [("responses", Schema.node (objectNode table))]
      | none => [])
  let required := (body.map fun (body, _) => isRequired body).getD false
  .node { objectNode properties with
    required := if required then some (.valid ["requestBody"]) else none
    extra := textEntry operation "summary" ++ textEntry operation "description"
      ++ [("x-webhook", .string webhook), ("x-webhook-method", .string method)] }

/-- An operation: its webhook, its method and what it says. -/
abbrev Operation := String × String × Table Json

/-- The operations of a webhook entry, in source order. -/
def entryOperations (webhook : String) (entry : Json) : List Operation :=
  (entry.object?.getD []).filterMap fun (method, operation) =>
    if methods.contains method then operation.object?.map (webhook, method, ·) else none

/-- The operations of a value that maps names to webhooks, in source order. -/
def operations (webhooks : Json) : List Operation :=
  (webhooks.object?.getD []).flatMap fun (webhook, entry) => entryOperations webhook entry

/-- The name that an operation asks for. -/
def baseName (webhook method : String) : String := pascalCase webhook ++ pascalCase method ++ "Webhook"

/-- The definitions of operations, each under its own name. -/
def define (document : Json) (names : NameAllocator) : List Operation → Table Schema × NameAllocator
  | [] => ([], names)
  | (webhook, method, operation) :: rest =>
    let (name, names) := names.allocate (baseName webhook method)
    let (others, names) := define document names rest
    ((name, definition document webhook method operation) :: others, names)

/-- One definition for each operation of the webhooks. -/
def definitions (webhooks document : Json) (names : NameAllocator) : Table Schema × NameAllocator :=
  define document names (operations webhooks)

def ofDocument (document : Json) : Table Json := ((document.get? "webhooks").bind Json.object?).getD []

end Webhook

end Schemata
