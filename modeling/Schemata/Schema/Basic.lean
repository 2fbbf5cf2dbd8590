import Schemata.Json.Kind

namespace Schemata

/-- The value of a keyword: of the expected shape, or any other value kept as it is. -/
inductive Slot (α : Type) where
  | valid (value : α)
  | malformed (value : Json)

/-- The value of the `type` keyword: one name, or a list of names. -/
inductive TypeNames where
  | single (name : String)
  | multiple (names : List String)
deriving DecidableEq

/-- The value of the `items` keyword: a list of schemas by position, or one schema for every element. -/
inductive Items (S : Type) where
  | positional (schemas : List S)
  | single (schema : S)

/-- An object schema whose subschemas are of type `S`. -/
structure NodeOf (S : Type) where
  types : Option (Slot TypeNames) := none
  const : Option Json := none
  enum : Option (Slot (List Json)) := none
  properties : Option (Slot (List (String × S))) := none
  required : Option (Slot (List String)) := none
  items : Option (Items S) := none
  prefixItems : Option (Slot (List S)) := none
  additionalItems : Option S := none
  additionalProperties : Option S := none
  allOf : Option (Slot (List S)) := none
  anyOf : Option (Slot (List S)) := none
  oneOf : Option (Slot (List S)) := none
  not : Option S := none
  /-- The keyword `if`. -/
  condition : Option S := none
  /-- The keyword `then`. -/
  consequent : Option S := none
  /-- The keyword `else`. -/
  alternative : Option S := none
  /-- The keyword `$ref`. -/
  reference : Option (Slot String) := none
  nullable : Option (Slot Bool) := none
  /-- Every other key, in source order. -/
  extra : List (String × Json) := []

/-- A schema position. -/
inductive Schema where
  | bool (value : Bool)
  | node (node : NodeOf Schema)
  | malformed (value : Json)

abbrev Node := NodeOf Schema

namespace Slot

/-- The value, when it has the expected shape. -/
def valid? {α : Type} : Slot α → Option α
  | .valid value => some value
  | .malformed _ => none

end Slot

/-- The names in order. -/
def TypeNames.names : TypeNames → List String
  | .single name => [name]
  | .multiple names => names

namespace Schema

instance : Inhabited Schema := ⟨.bool true⟩

/-- The node, when the schema is one. -/
def node? : Schema → Option Node
  | .node n => some n
  | _ => none

end Schema

namespace NodeOf

def empty {S : Type} : NodeOf S := {}

def isEmpty (n : NodeOf Schema) : Bool :=
  n.types.isNone && n.const.isNone && n.enum.isNone && n.properties.isNone && n.required.isNone
    && n.items.isNone && n.prefixItems.isNone && n.additionalItems.isNone && n.additionalProperties.isNone
    && n.allOf.isNone && n.anyOf.isNone && n.oneOf.isNone && n.not.isNone && n.condition.isNone
    && n.consequent.isNone && n.alternative.isNone && n.reference.isNone && n.nullable.isNone
    && n.extra.isEmpty

/-- The type names; none when `type` is absent or has the wrong shape. -/
def typeNames (n : Node) : List String := ((n.types.bind Slot.valid?).map TypeNames.names).getD []

/-- The declared properties, when well formed. -/
def propertyTable? (n : Node) : Option (Table Schema) := n.properties.bind Slot.valid?

/-- The required names; none when `required` is absent or has the wrong shape. -/
def requiredNames (n : Node) : List String := (n.required.bind Slot.valid?).getD []

/-- The target of `$ref`, when well formed. -/
def referenceText? (n : Node) : Option String := n.reference.bind Slot.valid?

/-- A node whose only type is null. -/
def isNullType (n : Node) : Bool := n.typeNames == ["null"]

/-- Some member of the list is a node whose only type is null. -/
def hasNullMember (slot : Option (Slot (List Schema))) : Bool :=
  ((slot.bind Slot.valid?).getD []).any fun s => (s.node?.map isNullType).getD false

/-- The flag is set, null is a type, or null is an alternative. -/
def isNullable (n : Node) : Bool :=
  (n.nullable.bind Slot.valid?).getD false || n.typeNames.contains "null"
    || hasNullMember n.anyOf || hasNullMember n.oneOf

end NodeOf

end Schemata
