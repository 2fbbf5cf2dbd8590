import Schemata.Json.Printer
import Schemata.Text.Quoted

namespace Schemata

/-- Why a value does not have the expected shape. -/
inductive ShapeError where
  | wrongType (found : Json) (expected : String)
  | wrongValue (found : Json) (expected : String)
  | missingField (name : String)
  | unknownField (name : String) (expected : List String)
  | unknownVariant (name : String) (expected : List String)
  | tooFew (count : Nat) (expected : String)
  | tooMany (count : Nat)
  /-- A rule that the fields break together. -/
  | rule (text : String)

/-- Names in backticks: two joined by `or`, more listed. -/
def oneOfNames : List String → String
  | [] => "there are no fields"
  | [name] => s!"expected `{name}`"
  | [first, second] => s!"expected `{first}` or `{second}`"
  | names => "expected one of " ++ String.intercalate ", " (names.map fun name => s!"`{name}`")

namespace Json

/-- How an error names a value that it did not expect. -/
def foundPhrase : Json → String
  | .null => "null"
  | .bool value => s!"boolean `{value}`"
  | .number (.int value _) => s!"integer `{value}`"
  | .number (.float value) => s!"floating point `{value.toJsonText}`"
  | .string value => "string " ++ Text.quoted value
  | .array _ => "sequence"
  | .object _ => "map"

end Json

def ShapeError.message : ShapeError → String
  | .wrongType found expected => s!"invalid type: {found.foundPhrase}, expected {expected}"
  | .wrongValue found expected => s!"invalid value: {found.foundPhrase}, expected {expected}"
  | .missingField name => s!"missing field `{name}`"
  | .unknownField name expected => s!"unknown field `{name}`, {oneOfNames expected}"
  | .unknownVariant name expected => s!"unknown variant `{name}`, {oneOfNames expected}"
  | .tooFew count expected => s!"invalid length {count}, expected {expected}"
  | .tooMany count => s!"invalid length {count}, expected fewer elements in array"
  | .rule text => text

/-- Reads a value of some shape. -/
abbrev ShapeReader (α : Type) := Json → Except ShapeError α

namespace Shape

def value : ShapeReader Json := .ok

def bool : ShapeReader Bool
  | .bool value => .ok value
  | found => .error (.wrongType found "a boolean")

def text : ShapeReader String
  | .string value => .ok value
  | found => .error (.wrongType found "a string")

/-- An integer from `low` to `high`, under the name of its kind. -/
def integer (kind : String) (low high : Int) : ShapeReader Int
  | .number (.int value h) =>
    if low ≤ value ∧ value ≤ high then .ok value else .error (.wrongValue (.number (.int value h)) kind)
  | found => .error (.wrongType found kind)

/-- A natural number of at most 64 bits. -/
def size : ShapeReader Nat := fun found => (integer "usize" 0 0xFFFFFFFFFFFFFFFF found).map Int.toNat

/-- A floating-point number; an integer stands for the nearest. -/
def float : ShapeReader Binary64
  | .number (.float value) => .ok value
  | .number (.int value h) =>
    match Binary64.ofInt? value with
    | some x => .ok x
    | none => .error (.wrongType (.number (.int value h)) "f64")
  | found => .error (.wrongType found "f64")

def optional {α : Type} (read : ShapeReader α) : ShapeReader (Option α)
  | .null => .ok none
  | found => (read found).map some

/-- Reads every member of an array in order. -/
def items {α : Type} (read : ShapeReader α) : List Json → Except ShapeError (List α)
  | [] => .ok []
  | value :: rest => do
    let first ← read value
    return first :: (← items read rest)

def list {α : Type} (read : ShapeReader α) : ShapeReader (List α)
  | .array values => items read values
  | found => .error (.wrongType found "a sequence")

/-- A name out of a list, alone or as the only key of an object that holds null. -/
def variant (names : List String) : ShapeReader String
  | .string name => if names.contains name then .ok name else .error (.unknownVariant name names)
  | .object [(name, content)] =>
    if !names.contains name then .error (.unknownVariant name names)
    else match content with
      | .null => .ok name
      | found => .error (.wrongType found "unit")
  | .object fields => .error (.wrongValue (.object fields) "map with a single key")
  | found => .error (.wrongType found "string or map")

/-- A field of a record: its name, whether it must be there, and how its value is put into the record. -/
structure Field (α : Type) where
  name : String
  required : Bool := false
  put : α → Json → Except ShapeError α

/-- A kind of record: its name, its fields, and whether other entries are refused. -/
structure Record (α : Type) where
  name : String
  fields : List (Field α)
  closed : Bool := true

namespace Record

variable {α : Type}

/-- Puts the entries of an object into the record, in their order. -/
def putEntries (kind : Record α) (record : α) : Table Json → Except ShapeError α
  | [] => .ok record
  | (name, value) :: rest => do
    match kind.fields.find? (·.name == name) with
    | some field => putEntries kind (← field.put record value) rest
    | none =>
      if kind.closed then .error (.unknownField name (kind.fields.map (·.name)))
      else putEntries kind record rest

/-- Puts the elements of an array into the record, field by field; a field behind the last element keeps what
the record has, unless it must be there. -/
def putElements (kind : Record α) (count : Nat) (record : α) : List (Field α) → List Json → Except ShapeError α
  | [], [] => .ok record
  | [], _ :: _ => .error (.tooMany count)
  | field :: fields, [] =>
    if field.required then
      .error (.tooFew count s!"struct {kind.name} with {kind.fields.length} elements")
    else putElements kind count record fields []
  | field :: fields, value :: rest => do putElements kind count (← field.put record value) fields rest

/-- Reads a record, starting from its defaults. -/
def read (kind : Record α) (defaults : α) : ShapeReader α
  | .object fields => do
    let record ← kind.putEntries defaults fields
    match kind.fields.find? fun field => field.required && !Table.has fields field.name with
    | some field => .error (.missingField field.name)
    | none => return record
  | .array values => kind.putElements values.length defaults kind.fields values
  | found => .error (.wrongType found s!"struct {kind.name}")

/-- Reads a record as above, but lets an array hold more elements than there are fields. -/
def readLeading (kind : Record α) (defaults : α) : ShapeReader α
  | .array values => kind.read defaults (.array (values.take kind.fields.length))
  | value => kind.read defaults value

end Record

end Shape

end Schemata
