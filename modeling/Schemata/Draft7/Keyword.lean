import Schemata.Draft7.PatternReader
import Schemata.Draft7.Comparison
import Schemata.Draft7.Finding

namespace Schemata

namespace Draft7

/-- A part of the value under test, and where in the schema we are. -/
structure Spot where
  path : Pointer
  place : Pointer
  value : Json
  /-- The places that references led to since this part of the value was reached. -/
  followed : List Pointer

namespace Spot

/-- The whole value, at the root of the schema. -/
def whole (value : Json) : Spot := ⟨[], [], value, []⟩

/-- The spot with the place one step deeper in the schema. -/
def under (spot : Spot) (step : String) : Spot := { spot with place := spot.place ++ [step] }

/-- The spot of a member of the value. -/
def member (spot : Spot) (step : String) (value : Json) : Spot := ⟨spot.path ++ [step], spot.place, value, []⟩

/-- The spot of the name of an entry. -/
def named (spot : Spot) (name : String) : Spot := { spot with value := .string name, followed := [] }

/-- The spot after a reference to a place. -/
def follow (spot : Spot) (place : Pointer) : Spot := { spot with place, followed := place :: spot.followed }

/-- The finding that is found here. -/
def broken (spot : Spot) (breach : Breach) : Finding := ⟨spot.path, spot.place, spot.value, breach⟩

/-- The finding, unless something holds. -/
def require (spot : Spot) (holds : Bool) (breach : Breach) : List Finding :=
  if holds then [] else [spot.broken breach]

end Spot

namespace Keyword

/-- Checks a spot against a schema. -/
abbrev Checker := Json → Spot → List Finding

/-- What a keyword finds: given the other keywords and its value, at a spot whose place is the keyword's. -/
abbrev Rule := Checker → Table Json → Json → Spot → List Finding

/-- The schema accepts the value of the spot. -/
def accepts (check : Checker) (schema : Json) (spot : Spot) : Bool := (check schema spot).isEmpty

/-- The types that `type` names. -/
def typeTags : Json → List TypeTag
  | .string name => (TypeTag.ofName? name).toList
  | .array names => names.filterMap fun name => name.string?.bind TypeTag.ofName?
  | _ => []

/-- The value has one of the types. -/
def type : Rule := fun _ _ expected spot =>
  let tags := typeTags expected
  spot.require (tags.any spot.value.hasType) (.wrongType tags)

/-- The value is the one that is given. -/
def const : Rule := fun _ _ expected spot => spot.require (agrees expected spot.value) (.notConst expected)

/-- The value is one of those that are given. -/
def enum : Rule := fun _ _ options spot =>
  let options := options.array?.getD []
  spot.require (options.any (agrees · spot.value)) (.notInEnum options)

/-- A rule on numbers with a number as its value. -/
def numeric (holds : Number → Number → Bool) (breach : Number → Breach) : Rule := fun _ _ limit spot =>
  match limit, spot.value with
  | .number limit, .number value => spot.require (holds value limit) (breach limit)
  | _, _ => []

/-- The count that a number stands for, within 64 bits. -/
def count? : Json → Option Nat
  | .number n => n.toInt?.map fun value => min value.toNat 0xFFFFFFFFFFFFFFFF
  | _ => none

/-- A rule that compares a size with a limit; the size is there for values of one type only. -/
def sized (size? : Json → Option Nat) (holds : Nat → Nat → Bool) (breach : Nat → Breach) : Rule :=
  fun _ _ limit spot =>
    match count? limit, size? spot.value with
    | some limit, some size => spot.require (holds size limit) (breach limit)
    | _, _ => []

/-- The number of characters of a text. -/
def characterCount? (value : Json) : Option Nat := value.string?.map String.length

/-- The number of items of an array. -/
def itemCount? (value : Json) : Option Nat := value.array?.map List.length

/-- The number of entries of an object. -/
def propertyCount? (value : Json) : Option Nat := value.object?.map List.length

def atLeast (size limit : Nat) : Bool := limit ≤ size

def atMost (size limit : Nat) : Bool := size ≤ limit

/-- The pattern matches somewhere in the text. -/
def matchesPattern (pattern text : String) : Bool := (Pattern.ofText? pattern).any (·.isIn text)

/-- The text has a match of the pattern. -/
def pattern : Rule := fun _ _ pattern spot =>
  match pattern, spot.value with
  | .string pattern, .string text => spot.require (matchesPattern pattern text) (.noMatch pattern)
  | _, _ => []

/-- The text is a regular expression, when the format asks for one; the other formats are not looked at. -/
def format : Rule := fun _ _ format spot =>
  match format, spot.value with
  | .string "regex", .string text => spot.require (Pattern.ofText? text).isSome (.badFormat "regex")
  | _, _ => []

/-- The items with their spots. -/
def itemSpots (spot : Spot) (items : List Json) : List Spot :=
  items.zipIdx.map fun (item, index) => spot.member (toString index) item

/-- The items all differ. -/
def uniqueItems : Rule := fun _ _ asked spot =>
  match asked, spot.value with
  | .bool true, .array items => spot.require (allDiffer items) .repeatedItems
  | _, _ => []

/-- Every item fits the one schema, or each the schema at its position. -/
def items : Rule := fun check _ schema spot =>
  match schema, spot.value with
  | .array schemas, .array items =>
    (schemas.zipIdx.zip (itemSpots spot items)).flatMap fun ((schema, index), item) =>
      check schema (item.under (toString index))
  | schema, .array items => (itemSpots spot items).flatMap (check schema)
  | _, _ => []

/-- Every item behind the positions of `items` fits the schema; `false` refuses them together. -/
def additionalItems : Rule := fun check beside schema spot =>
  match beside.lookup "items", schema, spot.value with
  | some (.array schemas), .bool false, .array items =>
    let others := items.drop schemas.length
    spot.require others.isEmpty (.unexpectedItems others)
  | some (.array schemas), .object fields, .array items =>
    ((itemSpots spot items).drop schemas.length).flatMap (check (.object fields))
  | _, _, _ => []

/-- Some item fits the schema. -/
def contains : Rule := fun check _ schema spot =>
  match spot.value with
  | .array items => spot.require ((itemSpots spot items).any (accepts check schema)) .containsNone
  | _ => []

/-- The entries with their spots. -/
def fieldSpots (spot : Spot) (fields : Table Json) : List (String × Spot) :=
  fields.map fun (name, value) => (name, spot.member name value)

/-- Every name of a list is there. -/
def missingNames (names : List Json) (spot : Spot) : List Finding :=
  match spot.value with
  | .object fields => (names.filterMap Json.string?).flatMap fun name => spot.require (Table.has fields name) (.missing name)
  | _ => []

/-- The required names are there. -/
def required : Rule := fun _ _ names spot => missingNames (names.array?.getD []) spot

/-- The keyword `additionalProperties` asks for something, and so takes over the work of the keywords about
properties. -/
def takesOver (beside : Table Json) : Bool :=
  match beside.lookup "additionalProperties" with
  | some (.bool false) => true
  | some (.object _) => true
  | _ => false

/-- The schemas by property name that stand beside. -/
def propertySchemas (beside : Table Json) : Table Json := ((beside.lookup "properties").bind Json.object?).getD []

/-- The schemas by pattern that stand beside. -/
def patternSchemas (beside : Table Json) : Table Json :=
  ((beside.lookup "patternProperties").bind Json.object?).getD []

/-- Each property that has a schema fits it. -/
def properties : Rule := fun check beside schemas spot =>
  match schemas, spot.value, takesOver beside with
  | .object schemas, .object fields, false => schemas.flatMap fun (name, schema) =>
    match fields.lookup name with
    | some value => check schema ((spot.member name value).under name)
    | none => []
  | _, _, _ => []

/-- Each property fits the schemas of the patterns that match its name. -/
def patternProperties : Rule := fun check beside schemas spot =>
  match schemas, spot.value, takesOver beside with
  | .object schemas, .object fields, false => schemas.flatMap fun (pattern, schema) =>
    (fieldSpots spot fields).flatMap fun (name, member) =>
      if matchesPattern pattern name then check schema (member.under pattern) else []
  | _, _, _ => []

/-- What the schemas beside find in one property, at the place of the node; nothing when there is no schema
for it. -/
def declared? (check : Checker) (beside : Table Json) (name : String) (member : Spot) : Option (List Finding) :=
  let own := ((propertySchemas beside).lookup name).map fun schema =>
    check schema ((member.under "properties").under name)
  let byPattern := ((patternSchemas beside).filter fun (pattern, _) => matchesPattern pattern name).map
    fun (pattern, schema) => check schema ((member.under "patternProperties").under pattern)
  if own.isNone && byPattern.isEmpty then none else some (own.getD [] ++ byPattern.flatten)

/-- Each property fits its schemas, and each without one fits this schema. With `false` and no schemas beside,
the first property is refused; with `false` otherwise all that have no schema are refused together. -/
def additionalProperties : Rule := fun check beside schema spot =>
  match schema, spot.value with
  | .bool false, .object [] => []
  | .bool false, .object ((name, value) :: rest) =>
    if !Table.has beside "properties" && !Table.has beside "patternProperties" then
      [⟨spot.path, spot.place, value, .neverAllowed⟩]
    else
      let node := { spot with place := spot.place.dropLast }
      let found := (fieldSpots node ((name, value) :: rest)).map fun (name, member) =>
        (name, declared? check beside name member)
      let unexpected := (found.filter (·.2.isNone)).map (·.1)
      (found.flatMap fun (_, findings) => findings.getD [])
        ++ spot.require unexpected.isEmpty (.unexpectedProperties unexpected)
  | .object schema, .object fields =>
    let node := { spot with place := spot.place.dropLast }
    (fieldSpots node fields).flatMap fun (name, member) =>
      (declared? check beside name member).getD (check (.object schema) (member.under "additionalProperties"))
  | _, _ => []

/-- Every name fits the schema. -/
def propertyNames : Rule := fun check _ schema spot =>
  match schema, spot.value with
  | .bool false, .object fields => spot.require fields.isEmpty .neverAllowed
  | schema, .object fields => fields.flatMap fun (name, _) => check schema (spot.named name)
  | _, _ => []

/-- With a property, others must be there too, or the whole object fits a schema. -/
def dependencies : Rule := fun check _ schemas spot =>
  match schemas, spot.value with
  | .object schemas, .object fields => schemas.flatMap fun (name, schema) =>
    if !Table.has fields name then []
    else match schema with
      | .array names => missingNames names spot
      | schema => check schema (spot.under name)
  | _, _ => []

/-- The schemas of a list, each with the spot at its place. -/
def branches (schemas : Json) (spot : Spot) : List (Json × Spot) :=
  (schemas.array?.getD []).zipIdx.map fun (schema, index) => (schema, spot.under (toString index))

/-- The value fits every schema. -/
def allOf : Rule := fun check _ schemas spot => (branches schemas spot).flatMap fun (schema, here) => check schema here

/-- The value fits some schema. -/
def anyOf : Rule := fun check _ schemas spot =>
  spot.require ((branches schemas spot).any fun (schema, here) => accepts check schema here) (.noneOf "anyOf")

/-- The value fits exactly one schema. -/
def oneOf : Rule := fun check _ schemas spot =>
  match (branches schemas spot).countP fun (schema, here) => accepts check schema here with
  | 0 => [spot.broken (.noneOf "oneOf")]
  | 1 => []
  | _ => [spot.broken .severalOf]

/-- The value does not fit the schema. -/
def not : Rule := fun check _ schema spot => spot.require (!accepts check schema spot) (.forbidden schema)

/-- The value fits `then` if it fits `if`, and `else` if not. -/
def condition : Rule := fun check beside schema spot =>
  let branch (name : String) : List Finding :=
    match beside.lookup name with
    | some schema => check schema { spot with place := spot.place.dropLast ++ [name] }
    | none => []
  if accepts check schema spot then branch "then" else branch "else"

/-- The rules in the order of their findings. -/
def rules : Table Rule := [
  ("type", type), ("const", const), ("enum", enum),
  ("minimum", numeric (fun value limit => !value.less limit) .belowMinimum),
  ("maximum", numeric (fun value limit => !limit.less value) .aboveMaximum),
  ("exclusiveMinimum", numeric (fun value limit => limit.less value) .notAboveMinimum),
  ("exclusiveMaximum", numeric (fun value limit => value.less limit) .notBelowMaximum),
  ("multipleOf", numeric isMultipleOf .notMultiple),
  ("minLength", sized characterCount? atLeast .tooShort), ("maxLength", sized characterCount? atMost .tooLong),
  ("minItems", sized itemCount? atLeast .tooFewItems), ("maxItems", sized itemCount? atMost .tooManyItems),
  ("minProperties", sized propertyCount? atLeast .tooFewProperties),
  ("maxProperties", sized propertyCount? atMost .tooManyProperties),
  ("required", required), ("pattern", pattern), ("format", format), ("uniqueItems", uniqueItems),
  ("properties", properties), ("patternProperties", patternProperties),
  ("additionalProperties", additionalProperties), ("propertyNames", propertyNames),
  ("items", items), ("additionalItems", additionalItems), ("contains", contains),
  ("dependencies", dependencies), ("allOf", allOf), ("anyOf", anyOf), ("oneOf", oneOf), ("not", not),
  ("if", condition)]

end Keyword

end Draft7

end Schemata
