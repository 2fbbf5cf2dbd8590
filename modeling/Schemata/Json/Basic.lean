import Schemata.Decimal.Notation
import Schemata.Table

namespace Schemata

/-- The integers with a 64-bit form, signed or unsigned. -/
def IntegerRange (n : Int) : Prop := -0x8000000000000000 ≤ n ∧ n < 0x10000000000000000

instance (n : Int) : Decidable (IntegerRange n) := inferInstanceAs (Decidable (_ ∧ _))

/-- A JSON number. -/
inductive Number where
  | int (value : Int) (inRange : IntegerRange value)
  | float (value : Binary64)
deriving DecidableEq

namespace Number

/-- An integer where it fits, else the nearest floating-point number; nothing past the finite range. -/
def ofInt? (n : Int) : Option Number :=
  if h : IntegerRange n then some (.int n h) else (Binary64.ofInt? n).map .float

def text : Number → String
  | .int value _ => toString value
  | .float value => value.toJsonText

/-- The exact value: a signed numerator over a positive denominator. -/
def exact : Number → Int × Nat
  | .int value _ => (value, 1)
  | .float value => (if value.negative then -(value.ratio.1 : Int) else value.ratio.1, value.ratio.2)

/-- The value as an integer, when it has no fraction. -/
def toInt? : Number → Option Int
  | .int value _ => some value
  | .float value => value.toInt?

/-- `a < b` as exact numbers. -/
def less (a b : Number) : Bool := a.exact.1 * b.exact.2 < b.exact.1 * a.exact.2

/-- `a = b` as exact numbers, whatever their kinds. -/
def equal (a b : Number) : Bool := a.exact.1 * b.exact.2 == b.exact.1 * a.exact.2

/-- Same kind and same number; the two zeros of the floating kind agree. -/
def same : Number → Number → Bool
  | .int a _, .int b _ => a == b
  | .float a, .float b => a.sameNumber b
  | _, _ => false

end Number

/-- A JSON value. -/
inductive Json where
  | null
  | bool (value : Bool)
  | number (value : Number)
  | string (value : String)
  | array (items : List Json)
  | object (fields : List (String × Json))
deriving Inhabited

namespace Json

/-- A small integer. -/
def ofNat (n : Nat) (h : IntegerRange n := by decide) : Json := .number (.int n h)

/-- How many containers enclose the deepest place: nothing for a scalar, one more than the deepest member for
an array or object. -/
def depth : Json → Nat
  | .array items => 1 + depthOfItems items
  | .object fields => 1 + depthOfFields fields
  | _ => 0
where
  depthOfItems : List Json → Nat
    | [] => 0
    | value :: rest => max value.depth (depthOfItems rest)
  depthOfFields : List (String × Json) → Nat
    | [] => 0
    | (_, value) :: rest => max value.depth (depthOfFields rest)

mutual
/-- How many values there are, this one and those inside it. -/
def size : Json → Nat
  | .array items => 1 + sizeOfItems items
  | .object fields => 1 + sizeOfFields fields
  | _ => 1

/-- The values in all items. -/
def sizeOfItems : List Json → Nat
  | [] => 0
  | value :: rest => value.size + sizeOfItems rest

/-- The values in all entries. -/
def sizeOfFields : List (String × Json) → Nat
  | [] => 0
  | (_, value) :: rest => value.size + sizeOfFields rest
end

mutual
/-- No object inside the value names an entry twice. -/
def KeysDistinct : Json → Prop
  | .array items => ItemsKeysDistinct items
  | .object fields => Table.Distinct fields ∧ FieldsKeysDistinct fields
  | _ => True

/-- No object inside the values names an entry twice. -/
def ItemsKeysDistinct : List Json → Prop
  | [] => True
  | value :: rest => value.KeysDistinct ∧ ItemsKeysDistinct rest

/-- No object inside the entries names an entry twice. -/
def FieldsKeysDistinct : List (String × Json) → Prop
  | [] => True
  | (_, value) :: rest => value.KeysDistinct ∧ FieldsKeysDistinct rest
end

/-- The entry of an object; nothing for a missing name and for any other value. -/
def get? (value : Json) (name : String) : Option Json :=
  match value with
  | .object fields => fields.lookup name
  | _ => none

def string? : Json → Option String
  | .string value => some value
  | _ => none

def object? : Json → Option (Table Json)
  | .object fields => some fields
  | _ => none

def array? : Json → Option (List Json)
  | .array items => some items
  | _ => none

mutual
/-- The same value kind for kind: entries in any order, zeros of either sign alike, but `1` is not `1.0`. -/
def same : Json → Json → Bool
  | .null, .null => true
  | .bool a, .bool b => a == b
  | .number a, .number b => a.same b
  | .string a, .string b => a == b
  | .array a, .array b => sameItems a b
  | .object a, .object b => a.length == b.length && sameFields a b
  | _, _ => false

def sameItems : List Json → List Json → Bool
  | [], [] => true
  | a :: as, b :: bs => a.same b && sameItems as bs
  | _, _ => false

/-- Every entry has a partner of its name. -/
def sameFields : List (String × Json) → List (String × Json) → Bool
  | [], _ => true
  | (name, a) :: rest, others =>
    (match others.lookup name with
      | some b => a.same b
      | none => false) && sameFields rest others
end

mutual
/-- The same value as data: entries in any order, and numbers by their value, so `1` equals `1.0`. -/
def equal : Json → Json → Bool
  | .null, .null => true
  | .bool a, .bool b => a == b
  | .number a, .number b => a.equal b
  | .string a, .string b => a == b
  | .array a, .array b => equalItems a b
  | .object a, .object b => a.length == b.length && equalFields a b
  | _, _ => false

def equalItems : List Json → List Json → Bool
  | [], [] => true
  | a :: as, b :: bs => a.equal b && equalItems as bs
  | _, _ => false

/-- Every entry has a partner of its name. -/
def equalFields : List (String × Json) → List (String × Json) → Bool
  | [], _ => true
  | (name, a) :: rest, others =>
    (match others.lookup name with
      | some b => a.equal b
      | none => false) && equalFields rest others
end

end Json

end Schemata
