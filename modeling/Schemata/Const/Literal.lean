import Schemata.Json.Printer
import Schemata.Json.Reader
import Schemata.Schema.Reader
import Schemata.Json.Kind

namespace Schemata

/-- A value of the host program, which may or may not have a JSON form. -/
inductive HostValue where
  | null
  | bool (value : Bool)
  | int (value : Int)
  | float (value : Binary64)
  /-- A floating-point value that is not a finite number. -/
  | notFinite
  | text (value : String)
  | list (items : List HostValue)
  /-- Entries under names. -/
  | record (fields : List (String × HostValue))
  /-- Entries under keys of any kind. -/
  | map (entries : List (HostValue × HostValue))
  /-- A value that refuses to be written. -/
  | refuses (reason : String)

/-- Why a host value has no JSON form. -/
inductive FormError where
  | keyNotText
  | numberOutOfRange
  | refused (reason : String)
deriving DecidableEq

def FormError.message : FormError → String
  | .keyNotText => "key must be a string"
  | .numberOutOfRange => "number out of range"
  | .refused reason => reason

namespace HostValue

/-- The text that a key becomes. -/
def keyText : HostValue → Except FormError String
  | .text value => .ok value
  | .bool value => .ok (if value then "true" else "false")
  | .int value => .ok (toString value)
  | .float value => .ok value.toJsonText
  | .refuses reason => .error (.refused reason)
  | _ => .error .keyNotText

mutual
def toJson : HostValue → Except FormError Json
  | .null => .ok .null
  | .bool value => .ok (.bool value)
  | .int value => if h : IntegerRange value then .ok (.number (.int value h)) else .error .numberOutOfRange
  | .float value => .ok (.number (.float value))
  | .notFinite => .ok .null
  | .text value => .ok (.string value)
  | .list items => (itemsToJson items).map .array
  | .record fields => (fieldsToJson fields).map fun fields => .object (Table.insertAll [] fields)
  | .map entries => (entriesToJson entries).map fun fields => .object (Table.insertAll [] fields)
  | .refuses reason => .error (.refused reason)

def itemsToJson : List HostValue → Except FormError (List Json)
  | [] => .ok []
  | value :: rest => do
    let value ← toJson value
    return value :: (← itemsToJson rest)

def fieldsToJson : List (String × HostValue) → Except FormError (List (String × Json))
  | [] => .ok []
  | (name, value) :: rest => do
    let value ← toJson value
    return (name, value) :: (← fieldsToJson rest)

/-- The JSON forms of entries under keys. -/
def entriesToJson : List (HostValue × HostValue) → Except FormError (List (String × Json))
  | [] => .ok []
  | (key, value) :: rest => do
    let name ← keyText key
    let value ← toJson value
    return (name, value) :: (← entriesToJson rest)
end

/-- The type name of the JSON form; a value without one counts as a string. -/
def tag (value : HostValue) : TypeTag :=
  match value.toJson with
  | .ok json => json.tag
  | .error _ => .string

end HostValue

/-- Why a value is not admitted for `const`. -/
inductive ConstError where
  | absent
  | tooDeep
  | noForm (error : FormError)
deriving DecidableEq

def ConstError.message (e : ConstError) : String :=
  "invalid const value: " ++ match e with
    | .absent => "value is absent"
    | .tooDeep => s!"value nests deeper than {Json.maxDepth} levels"
    | .noForm error => s!"not representable as JSON: {error.message}"

namespace Json

/-- What a container holds; nothing for a scalar. -/
def contents? : Json → Option (List Json)
  | .array items => some items
  | .object fields => some (fields.map (·.2))
  | _ => none

theorem sizeOf_contents_lt {value : Json} {contents : List Json} (holds : value.contents? = some contents) :
    sizeOf contents < sizeOf value := by
  cases value with
  | array items =>
    cases holds
    simp only [array.sizeOf_spec]
    omega
  | object fields =>
    cases holds
    have values (fields : Table Json) : sizeOf (fields.map (·.2)) ≤ sizeOf fields := by
      induction fields with
      | nil => exact Nat.le_refl _
      | cons field rest ih =>
        obtain ⟨name, value⟩ := field
        simp only [List.map_cons, List.cons.sizeOf_spec, Prod.mk.sizeOf_spec] at ih ⊢
        omega
    have := values fields
    simp only [object.sizeOf_spec]
    omega
  | _ => cases holds

theorem sizeOf_append_succ (values others : List Json) :
    sizeOf (values ++ others) + 1 = sizeOf values + sizeOf others := by
  induction values with
  | nil => simp only [List.nil_append, List.nil.sizeOf_spec]; omega
  | cons value rest ih => simp only [List.cons_append, List.cons.sizeOf_spec]; omega

theorem sizeOf_reverse (values : List Json) : sizeOf values.reverse = sizeOf values := by
  induction values with
  | nil => rfl
  | cons value rest ih =>
    have whole := sizeOf_append_succ rest.reverse [value]
    simp only [List.reverse_cons, List.cons.sizeOf_spec, List.nil.sizeOf_spec] at whole ⊢
    omega

/-- Takes the waiting values one by one, each with the number of containers around it. What a container holds comes
before the values that wait already, its last value first. The first container that is too deep ends the search. -/
def nestWithin (limit : Nat) : List (Json × Nat) → Bool
  | [] => true
  | (value, around) :: waiting =>
    match _holds : value.contents? with
    | none => nestWithin limit waiting
    | some contents =>
      if limit < around + 1 then false
      else nestWithin limit ((contents.map (·, around + 1)).reverse ++ waiting)
termination_by waiting => sizeOf (waiting.map (·.1))
decreasing_by
  · simp only [List.map_cons, List.cons.sizeOf_spec]
    omega
  · have smaller := sizeOf_contents_lt _holds
    have whole := sizeOf_append_succ contents.reverse (waiting.map (·.1))
    rw [sizeOf_reverse] at whole
    simp only [List.map_cons, List.map_append, List.map_reverse, List.map_map, Function.comp_def, List.map_id',
      List.cons.sizeOf_spec]
    omega

/-- The value itself, when it may stand under `const`. -/
def admitted : Option Json → Except ConstError Json
  | none => .error .absent
  | some value => if nestWithin maxDepth [(value, 0)] then .ok value else .error .tooDeep

end Json

namespace HostValue

/-- The JSON form, when it may stand under `const`. -/
def literal (value : HostValue) : Except ConstError Json :=
  match value.toJson with
  | .ok json => Json.admitted (some json)
  | .error e => .error (.noForm e)

end HostValue

/-- The node for a literal, with further entries that win over its own. -/
def Node.ofLiteral (value : Json) (extra : Table Json) : Node :=
  Schema.nodeOfFields (Table.insertAll
    [("const", value), ("type", .string value.tag.name), ("enum", .array [value])] extra)

/-- The node for a host value, with further entries that win over its own. -/
def Node.ofHostValue (value : HostValue) (extra : Table Json) : Except ConstError Node :=
  value.literal.map fun json => Node.ofLiteral json extra

end Schemata
