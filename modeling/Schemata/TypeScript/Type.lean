import Schemata.Decimal.Extended

namespace Schemata

/-- A type with a name of its own in the language. -/
inductive Primitive where
  | string | number | boolean | null | unknown | never
deriving DecidableEq, Repr

/-- A value that is a type. -/
inductive Literal where
  | string (value : String)
  | int (value : Int)
  | number (value : Extended)
  | bool (value : Bool)
  | null
deriving DecidableEq

/-- A property of an object type. -/
structure PropertyOf (T : Type) where
  name : String
  type : T
  isOptional : Bool := false
  doc : Option String := none

inductive TsType where
  | primitive (kind : Primitive)
  | literal (value : Literal)
  /-- An array with elements of one type. -/
  | array (element : TsType)
  /-- An array with the types of its first elements; without `rest` it has no others. -/
  | tuple (items : List TsType) (rest : Option TsType)
  | union (members : List TsType)
  | intersection (members : List TsType)
  | object (properties : List (PropertyOf TsType))
  | record (key value : TsType)
  /-- A type by its name. -/
  | ref (name : String)

abbrev Property := PropertyOf TsType

/-- The same literal; numbers are compared as numbers. -/
def Literal.same : Literal → Literal → Bool
  | .string a, .string b => a == b
  | .int a, .int b => a == b
  | .number a, .number b => a.sameNumber b
  | .bool a, .bool b => a == b
  | .null, .null => true
  | _, _ => false

namespace TsType

instance : Inhabited TsType := ⟨.primitive .unknown⟩

/-- The type of all values. -/
def unknown : TsType := .primitive .unknown

/-- The type without values. -/
def never : TsType := .primitive .never

/-- An object with values of one type under any keys. -/
def stringRecord (value : TsType) : TsType := .record (.primitive .string) value

mutual
/-- The same type, member by member. -/
def same : TsType → TsType → Bool
  | .primitive a, .primitive b => a == b
  | .literal a, .literal b => a.same b
  | .array a, .array b => a.same b
  | .tuple items rest, .tuple items' rest' => sameList items items' && sameOption rest rest'
  | .union members, .union members' => sameList members members'
  | .intersection members, .intersection members' => sameList members members'
  | .object properties, .object properties' => sameProperties properties properties'
  | .record key value, .record key' value' => key.same key' && value.same value'
  | .ref a, .ref b => a == b
  | _, _ => false

/-- The same types in the same order. -/
def sameList : List TsType → List TsType → Bool
  | [], [] => true
  | a :: as, b :: bs => a.same b && sameList as bs
  | _, _ => false

/-- The same type, or none on both sides. -/
def sameOption : Option TsType → Option TsType → Bool
  | none, none => true
  | some a, some b => a.same b
  | _, _ => false

/-- The same properties in the same order, with the same descriptions. -/
def sameProperties : List (PropertyOf TsType) → List (PropertyOf TsType) → Bool
  | [], [] => true
  | ⟨name, type, isOptional, doc⟩ :: rest, ⟨name', type', isOptional', doc'⟩ :: rest' =>
    name == name' && type.same type' && isOptional == isOptional' && doc == doc' && sameProperties rest rest'
  | _, _ => false
end

/-- The members of a union; any other type is its own only member. -/
def unionMembers : TsType → List TsType
  | .union members => members
  | type => [type]

/-- The members of an intersection; any other type is its own only member. -/
def intersectionMembers : TsType → List TsType
  | .intersection members => members
  | type => [type]

/-- The types without `neutral` and without repetition, the first of equal ones kept; nothing when `absorbing`
is among them. -/
def collect (absorbing neutral : TsType) (collected : List TsType) : List TsType → Option (List TsType)
  | [] => some collected
  | type :: rest =>
    if type.same absorbing then none
    else if type.same neutral || collected.any type.same then collect absorbing neutral collected rest
    else collect absorbing neutral (collected ++ [type]) rest

/-- One type for a list of collected members. -/
def joined (absorbing neutral : TsType) (join : List TsType → TsType) : Option (List TsType) → TsType
  | none => absorbing
  | some [] => neutral
  | some [type] => type
  | some members => join members

/-- The union of types: nested unions are flattened, `unknown` takes over, `never` vanishes. -/
def unionOf (types : List TsType) : TsType :=
  joined unknown never .union (collect unknown never [] (types.flatMap unionMembers))

/-- The intersection of types: nested intersections are flattened, `never` takes over, `unknown` vanishes. -/
def intersectionOf (types : List TsType) : TsType :=
  joined never unknown .intersection (collect never unknown [] (types.flatMap intersectionMembers))

end TsType

end Schemata
