import Schemata.Pass.Reference
import Schemata.TypeScript.Declaration

namespace Schemata

namespace Literal

/-- The literal of a number: an integer where it fits a signed 64-bit integer, else a floating-point number. -/
def ofNumber : Number → Literal
  | .int value _ =>
    if value < 0x8000000000000000 then .int value
    else .number (.finite ((Binary64.ofInt? value).getD (Binary64.zero false)))
  | .float value => .number (.finite value)

end Literal

namespace TsType

mutual
/-- The type of one value: arrays are closed tuples, objects have exactly their properties. -/
def ofJson : Json → TsType
  | .null => .literal .null
  | .bool value => .literal (.bool value)
  | .number value => .literal (.ofNumber value)
  | .string value => .literal (.string value)
  | .array items => .tuple (ofItems items) none
  | .object fields => .object (ofFields fields)

def ofItems : List Json → List TsType
  | [] => []
  | value :: rest => ofJson value :: ofItems rest

def ofFields : List (String × Json) → List Property
  | [] => []
  | (name, value) :: rest => { name, type := ofJson value } :: ofFields rest
end

/-- The type of a reference: the name of the definition that it leads to. -/
def ofReference (names : Table String) : Slot String → TsType
  | .valid reference =>
    match (Text.dropStart? Reference.canonicalStart reference).bind fun name => names.lookup name with
    | some name => .ref name
    | none => unknown
  | .malformed _ => unknown

/-- The text under a key, when it is one. -/
def textUnder (n : Node) (key : String) : Option String := (n.extra.lookup key).bind Json.string?

def descriptionOf (schema : Schema) : Option String := schema.node?.bind fun n => textUnder n "description"

/-- The required names without a declaration, as properties of unknown type. -/
def undeclared (declared : List Property) : List String → List Property
  | [] => []
  | name :: rest =>
    if declared.any (·.name == name) then undeclared declared rest
    else
      let added : Property := { name, type := unknown }
      added :: undeclared (declared ++ [added]) rest

/-- The schemas of other properties: not mentioned, forbidden, or of some type. -/
inductive Others where
  | open
  | closed
  | typed (type : TsType)

/-- The type of objects with these properties. -/
def ofProperties (declared : List Property) (required : List String) (others : Others) : TsType :=
  match declared ++ undeclared declared required, others with
  | [], .open => stringRecord unknown
  | [], .closed => stringRecord never
  | [], .typed type => stringRecord type
  | properties, .typed type => .intersection [.object properties, stringRecord type]
  | properties, _ => .object properties

/-- The type of a type name, given those of arrays and objects. -/
def ofTypeName (arrays objects : TsType) (name : String) : TsType :=
  if name = "string" then .primitive .string
  else if name = "number" || name = "integer" then .primitive .number
  else if name = "boolean" then .primitive .boolean
  else if name = "null" then .primitive .null
  else if name = "array" then arrays
  else if name = "object" then objects
  else unknown

/-- The type that the type names ask for; without one, the keywords that are there tell. -/
def ofTypeNames (typeNames : List String) (aboutObjects aboutArrays : Bool) (arrays objects : TsType) : TsType :=
  match typeNames with
  | [] => if aboutObjects then objects else if aboutArrays then arrays else unknown
  | typeNames => unionOf (typeNames.map (ofTypeName arrays objects))

/-- The type of a reference, a constant or the members of an enumeration, else that of the other keywords. -/
def ofForemost (names : Table String) (reference : Option (Slot String)) (const : Option Json)
    (enum : Option (Slot (List Json))) (keywords : TsType) : TsType :=
  match reference, const, enum with
  | some reference, _, _ => ofReference names reference
  | none, some value, _ => ofJson value
  | none, none, some (.valid values) => unionOf (values.map ofJson)
  | none, none, _ => keywords

mutual
def ofSchema (names : Table String) : Schema → TsType
  | .bool true => unknown
  | .bool false => never
  | .malformed _ => unknown
  | .node n => ofNode names n

def ofNode (names : Table String) : Node → TsType
  | { types, const, enum, properties, required, items, additionalItems, additionalProperties, allOf, anyOf, oneOf,
      reference, .. } =>
    let requiredNames := (required.bind Slot.valid?).getD []
    let objects := ofProperties (ofDeclared names requiredNames properties) requiredNames
      (ofOthers names additionalProperties)
    let arrays := ofElements names (ofLater names additionalItems) items
    let base := ofTypeNames (((types.bind Slot.valid?).map TypeNames.names).getD [])
      (properties.isSome || additionalProperties.isSome) items.isSome arrays objects
    ofForemost names reference const enum (intersectionOf (base ::
      (ofListed names intersectionOf allOf ++ ofListed names unionOf anyOf ++ ofListed names unionOf oneOf)))

def ofDeclared (names : Table String) (required : List String) :
    Option (Slot (List (String × Schema))) → List (PropertyOf TsType)
  | some (.valid table) => ofTable names required table
  | _ => []

def ofOthers (names : Table String) : Option Schema → Others
  | none => .open
  | some (.bool false) => .closed
  | some schema => .typed (ofSchema names schema)

/-- The items past the listed positions. -/
def ofLater (names : Table String) : Option Schema → Option TsType
  | none => some unknown
  | some (.bool false) => none
  | some schema => some (ofSchema names schema)

/-- The type of the arrays, given the type of the items past the listed positions. -/
def ofElements (names : Table String) (later : Option TsType) : Option (Items Schema) → TsType
  | some (.positional schemas) => .tuple (ofList names schemas) later
  | some (.single schema) => .array (ofSchema names schema)
  | none => .array unknown

/-- The type that a list of schemas makes, if it is well formed. -/
def ofListed (names : Table String) (make : List TsType → TsType) : Option (Slot (List Schema)) → List TsType
  | some (.valid schemas) => [make (ofList names schemas)]
  | _ => []

def ofList (names : Table String) : List Schema → List TsType
  | [] => []
  | schema :: rest => ofSchema names schema :: ofList names rest

/-- The properties that a table declares. -/
def ofTable (names : Table String) (required : List String) : List (String × Schema) → List (PropertyOf TsType)
  | [] => []
  | (name, schema) :: rest =>
    { name, type := ofSchema names schema, isOptional := !required.contains name, doc := descriptionOf schema }
      :: ofTable names required rest
end

end TsType

/-- The declaration of a definition: an interface for an object type, an alias for any other. -/
def TypeDeclaration.ofSchema (names : Table String) (name : String) (schema : Schema) : TypeDeclaration :=
  { name
    doc := schema.node?.bind fun n => (TsType.textUnder n "description").or (TsType.textUnder n "title")
    body := match TsType.ofSchema names schema with
      | .object properties => .interface properties
      | type => .alias type }

end Schemata
