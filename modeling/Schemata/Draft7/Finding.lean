import Schemata.Json.Kind
import Schemata.Json.Pointer
import Schemata.Json.Printer

namespace Schemata

namespace Draft7

/-- How a value breaks a schema. -/
inductive Breach where
  | neverAllowed
  | wrongType (expected : List TypeTag)
  | notConst (expected : Json)
  | notInEnum (options : List Json)
  | belowMinimum (limit : Number)
  | aboveMaximum (limit : Number)
  | notAboveMinimum (limit : Number)
  | notBelowMaximum (limit : Number)
  | notMultiple (factor : Number)
  | tooShort (limit : Nat)
  | tooLong (limit : Nat)
  | tooFewItems (limit : Nat)
  | tooManyItems (limit : Nat)
  | tooFewProperties (limit : Nat)
  | tooManyProperties (limit : Nat)
  | missing (name : String)
  | noMatch (pattern : String)
  | badFormat (format : String)
  | repeatedItems
  | unexpectedProperties (names : List String)
  | unexpectedItems (items : List Json)
  | containsNone
  | noneOf (keyword : String)
  | severalOf
  | forbidden (schema : Json)

/-- A value breaks a schema. -/
structure Finding where
  /-- The path of the part of the value. -/
  path : Pointer
  /-- The place in the schema. -/
  place : Pointer
  /-- The part of the value. -/
  found : Json
  breach : Breach

namespace Breach

/-- A count and its noun. -/
def counted (count : Nat) (one many : String) : String := toString count ++ " " ++ if count = 1 then one else many

def characters (count : Nat) : String := counted count "character" "characters"

def itemsPhrase (count : Nat) : String := counted count "item" "items"

def propertiesPhrase (count : Nat) : String := counted count "property" "properties"

/-- A text in double quotes, as it is. -/
def inQuotes (text : String) : String := "\"" ++ text ++ "\""

/-- A text in single quotes, as it is. -/
def inSingleQuotes (text : String) : String := "'" ++ text ++ "'"

/-- The type names in the order in which messages list them. -/
def typeOrder : List TypeTag := [.array, .boolean, .integer, .null, .number, .object, .string]

/-- One expected type, or several of them. -/
def typePhrase (expected : List TypeTag) : String :=
  match expected with
  | [tag] => "type " ++ inQuotes tag.name
  | tags => "types " ++ String.intercalate ", " ((typeOrder.filter tags.contains).map fun tag => inQuotes tag.name)

/-- Up to three options; of more the first two and the count of the others. -/
def optionsPhrase (options : List Json) : String :=
  match options.map Json.compact with
  | [] => ""
  | [a] => a
  | [a, b] => s!"{a} or {b}"
  | [a, b, c] => s!"{a}, {b} or {c}"
  | a :: b :: others => s!"{a}, {b} or {others.length} other candidates"

/-- The texts that were not expected. -/
def unexpectedPhrase (texts : List String) : String :=
  String.intercalate ", " texts ++ (if texts.length = 1 then " was" else " were") ++ " unexpected"

/-- The wording, for the part of the value in its written form. -/
def message (found : String) : Breach → String
  | neverAllowed => s!"False schema does not allow {found}"
  | wrongType expected => s!"{found} is not of {typePhrase expected}"
  | notConst expected => s!"{expected.compact} was expected"
  | notInEnum options => s!"{found} is not one of {optionsPhrase options}"
  | belowMinimum limit => s!"{found} is less than the minimum of {limit.text}"
  | aboveMaximum limit => s!"{found} is greater than the maximum of {limit.text}"
  | notAboveMinimum limit => s!"{found} is less than or equal to the minimum of {limit.text}"
  | notBelowMaximum limit => s!"{found} is greater than or equal to the maximum of {limit.text}"
  | notMultiple factor => s!"{found} is not a multiple of {factor.text}"
  | tooShort limit => s!"{found} is shorter than {characters limit}"
  | tooLong limit => s!"{found} is longer than {characters limit}"
  | tooFewItems limit => s!"{found} has less than {itemsPhrase limit}"
  | tooManyItems limit => s!"{found} has more than {itemsPhrase limit}"
  | tooFewProperties limit => s!"{found} has less than {propertiesPhrase limit}"
  | tooManyProperties limit => s!"{found} has more than {propertiesPhrase limit}"
  | missing name => s!"{Json.quoted name} is a required property"
  | noMatch pattern => s!"{found} does not match {inQuotes pattern}"
  | badFormat format => s!"{found} is not a {inQuotes format}"
  | repeatedItems => s!"{found} has non-unique elements"
  | unexpectedProperties names =>
    s!"Additional properties are not allowed ({unexpectedPhrase (names.map inSingleQuotes)})"
  | unexpectedItems items => s!"Additional items are not allowed ({unexpectedPhrase (items.map Json.compact)})"
  | containsNone => s!"None of {found} are valid under the given schema"
  | noneOf keyword => s!"{found} is not valid under any of the schemas listed in the {inSingleQuotes keyword} keyword"
  | severalOf => s!"{found} is valid under more than one of the schemas listed in the 'oneOf' keyword"
  | forbidden schema => s!"{schema.compact} is not allowed for {found}"

end Breach

def Finding.message (finding : Finding) : String := finding.breach.message finding.found.compact

end Draft7

end Schemata
