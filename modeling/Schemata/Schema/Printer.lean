import Schemata.Json.Printer
import Schemata.Schema.Basic

namespace Schemata

namespace Slot

/-- The value of a keyword; one of the wrong shape is written as it was read. -/
def toJson {α : Type} (write : α → Json) : Slot α → Json
  | .valid value => write value
  | .malformed value => value

end Slot

def Json.ofTexts (texts : List String) : Json := .array (texts.map .string)

/-- One name stands alone; a list of names stays a list. -/
def TypeNames.toJson : TypeNames → Json
  | .single name => .string name
  | .multiple names => Json.ofTexts names

/-- The entry of a keyword, when it is present. -/
def Json.entry (key : String) : Option Json → List (String × Json)
  | none => []
  | some value => [(key, value)]

namespace Schema

mutual
def toJson : Schema → Json
  | .bool value => .bool value
  | .malformed value => value
  | .node n => .object (nodeFields n)

def nodeFields : Node → List (String × Json)
  | { types, const, enum, properties, required, items, prefixItems, additionalItems, additionalProperties,
      allOf, anyOf, oneOf, not, condition, consequent, alternative, reference, nullable, extra } =>
    Json.entry "type" (types.map (Slot.toJson TypeNames.toJson))
      ++ (Json.entry "const" const
      ++ (Json.entry "enum" (enum.map (Slot.toJson Json.array))
      ++ (tableEntry "properties" properties
      ++ (Json.entry "required" (required.map (Slot.toJson Json.ofTexts))
      ++ (itemsEntry items
      ++ (listEntry "prefixItems" prefixItems
      ++ (schemaEntry "additionalItems" additionalItems
      ++ (schemaEntry "additionalProperties" additionalProperties
      ++ (listEntry "allOf" allOf
      ++ (listEntry "anyOf" anyOf
      ++ (listEntry "oneOf" oneOf
      ++ (schemaEntry "not" not
      ++ (schemaEntry "if" condition
      ++ (schemaEntry "then" consequent
      ++ (schemaEntry "else" alternative
      ++ (Json.entry "$ref" (reference.map (Slot.toJson Json.string))
      ++ (Json.entry "nullable" (nullable.map (Slot.toJson Json.bool))
      ++ extra)))))))))))))))))

/-- The entry of a keyword that holds one schema. -/
def schemaEntry (key : String) : Option Schema → List (String × Json)
  | none => []
  | some schema => [(key, toJson schema)]

/-- The entry of a keyword that holds a list of schemas. -/
def listEntry (key : String) : Option (Slot (List Schema)) → List (String × Json)
  | none => []
  | some (.valid schemas) => [(key, .array (listToItems schemas))]
  | some (.malformed value) => [(key, value)]

/-- The entry of a keyword that holds a table of schemas. -/
def tableEntry (key : String) : Option (Slot (List (String × Schema))) → List (String × Json)
  | none => []
  | some (.valid table) => [(key, .object (tableToFields table))]
  | some (.malformed value) => [(key, value)]

def itemsEntry : Option (Items Schema) → List (String × Json)
  | none => []
  | some (.positional schemas) => [("items", .array (listToItems schemas))]
  | some (.single schema) => [("items", toJson schema)]

def listToItems : List Schema → List Json
  | [] => []
  | schema :: rest => toJson schema :: listToItems rest

def tableToFields : List (String × Schema) → List (String × Json)
  | [] => []
  | (name, schema) :: rest => (name, toJson schema) :: tableToFields rest
end

def text (schema : Schema) : String := schema.toJson.compact

end Schema

end Schemata
