import Schemata.Json.Basic

namespace Schemata

/-- A type name of the schema language. -/
inductive TypeTag where
  | null | boolean | integer | number | string | array | object
deriving DecidableEq, Repr

namespace TypeTag

/-- The name as written in a schema. -/
def name : TypeTag → String
  | .null => "null"
  | .boolean => "boolean"
  | .integer => "integer"
  | .number => "number"
  | .string => "string"
  | .array => "array"
  | .object => "object"

/-- All of them, in the order in which they are listed. -/
def all : List TypeTag := [.null, .boolean, .integer, .number, .string, .array, .object]

def ofName? (name : String) : Option TypeTag := all.find? (·.name == name)

end TypeTag

namespace Number

def isWhole (n : Number) : Bool := n.toInt?.isSome

end Number

namespace Json

/-- The narrowest type name of the value. -/
def tag : Json → TypeTag
  | .null => .null
  | .bool _ => .boolean
  | .number n => if n.isWhole then .integer else .number
  | .string _ => .string
  | .array _ => .array
  | .object _ => .object

/-- The value is of the type; every number without a fraction is an integer. -/
def hasType (value : Json) (tag : TypeTag) : Bool := value.tag == tag || (value.tag == .integer && tag == .number)

/-- The kind of the value, with its article. -/
def kindPhrase : Json → String
  | .null => "null"
  | .bool _ => "a boolean"
  | .number _ => "a number"
  | .string _ => "a string"
  | .array _ => "an array"
  | .object _ => "an object"

end Json

end Schemata
