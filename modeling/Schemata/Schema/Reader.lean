import Schemata.Schema.Basic

namespace Schemata

/-- All texts of a list, when it holds nothing else. -/
def Json.texts? : List Json → Option (List String)
  | [] => some []
  | .string value :: rest => (texts? rest).map (value :: ·)
  | _ :: _ => none

/-- Reads `type`: a text, or a list of texts. -/
def TypeNames.ofJson (value : Json) : Slot TypeNames :=
  match value with
  | .string name => .valid (.single name)
  | .array items =>
    match Json.texts? items with
    | some names => .valid (.multiple names)
    | none => .malformed value
  | _ => .malformed value

namespace Slot

def textsOfJson (value : Json) : Slot (List String) :=
  match value with
  | .array items =>
    match Json.texts? items with
    | some names => .valid names
    | none => .malformed value
  | _ => .malformed value

def itemsOfJson : Json → Slot (List Json)
  | .array items => .valid items
  | value => .malformed value

def textOfJson : Json → Slot String
  | .string value => .valid value
  | value => .malformed value

def boolOfJson : Json → Slot Bool
  | .bool value => .valid value
  | value => .malformed value

end Slot

namespace Schema

mutual
def ofJson : Json → Schema
  | .bool value => .bool value
  | .object fields => .node (nodeOfFields fields)
  | value => .malformed value

def nodeOfFields : List (String × Json) → Node
  | [] => {}
  | (key, value) :: rest =>
    let n := nodeOfFields rest
    if key = "type" then { n with types := some (TypeNames.ofJson value) }
    else if key = "const" then { n with const := some value }
    else if key = "enum" then { n with enum := some (Slot.itemsOfJson value) }
    else if key = "properties" then
      { n with properties := some (match value with
        | .object fields => .valid (tableOfFields fields)
        | other => .malformed other) }
    else if key = "required" then { n with required := some (Slot.textsOfJson value) }
    else if key = "items" then
      { n with items := some (match value with
        | .array values => .positional (listOfItems values)
        | other => .single (ofJson other)) }
    else if key = "prefixItems" then { n with prefixItems := some (slotOfJson value) }
    else if key = "additionalItems" then { n with additionalItems := some (ofJson value) }
    else if key = "additionalProperties" then { n with additionalProperties := some (ofJson value) }
    else if key = "allOf" then { n with allOf := some (slotOfJson value) }
    else if key = "anyOf" then { n with anyOf := some (slotOfJson value) }
    else if key = "oneOf" then { n with oneOf := some (slotOfJson value) }
    else if key = "not" then { n with not := some (ofJson value) }
    else if key = "if" then { n with condition := some (ofJson value) }
    else if key = "then" then { n with consequent := some (ofJson value) }
    else if key = "else" then { n with alternative := some (ofJson value) }
    else if key = "$ref" then { n with reference := some (Slot.textOfJson value) }
    else if key = "nullable" then { n with nullable := some (Slot.boolOfJson value) }
    else { n with extra := (key, value) :: n.extra }

/-- A list of schemas. -/
def slotOfJson : Json → Slot (List Schema)
  | .array values => .valid (listOfItems values)
  | value => .malformed value

def listOfItems : List Json → List Schema
  | [] => []
  | value :: rest => ofJson value :: listOfItems rest

def tableOfFields : List (String × Json) → List (String × Schema)
  | [] => []
  | (name, value) :: rest => (name, ofJson value) :: tableOfFields rest
end

end Schema

end Schemata
