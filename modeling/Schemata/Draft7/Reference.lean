import Schemata.Json.Pointer
import Schemata.Text.Cut
import Schemata.Text.Percent

namespace Schemata

namespace Draft7

/-- Why a reference leads nowhere. -/
inductive ReferenceError where
  | dangling (pointer : String)
  | badIndex (pointer index : String)
  | notUtf8 (pointer : String)
  | noAnchor (name : String)
  | otherDocument (target : String)

def ReferenceError.message : ReferenceError → String
  | .dangling pointer => s!"Pointer '{pointer}' does not exist"
  | .badIndex pointer index => s!"Failed to parse array index '{index}' in pointer '{pointer}'"
  | .notUtf8 pointer =>
    s!"Invalid percent encoding in pointer '{pointer}': the decoded bytes do not represent valid UTF-8"
  | .noAnchor name => s!"Anchor '{name}' does not exist"
  | .otherDocument target => s!"Resource '{target}' is not present in a registry"

/-- A part of a document with its path. -/
structure Target where
  place : Pointer
  schema : Json

namespace Target

/-- An array index: decimal digits, after a plus sign or none. -/
def index? (text : List Char) : Option Nat :=
  let digits := match text with
    | '+' :: rest => rest
    | rest => rest
  if digits.isEmpty || !digits.all Char.isDigit then none
  else some (digits.foldl (fun n c => n * 10 + (c.toNat - 48)) 0)

/-- Follows the written tokens of a pointer. -/
def follow (pointer : String) (target : Target) : List (List Char) → Except ReferenceError Target
  | [] => .ok target
  | written :: rest =>
    match target.schema with
    | .array items =>
      match index? written with
      | none => .error (.badIndex pointer (String.ofList written))
      | some index =>
        match items[index]? with
        | some item => follow pointer ⟨target.place ++ [toString index], item⟩ rest
        | none => .error (.dangling pointer)
    | value =>
      let token := String.ofList (Pointer.unescapeChars written)
      match value.get? token with
      | some member => follow pointer ⟨target.place ++ [token], member⟩ rest
      | none => .error (.dangling pointer)

/-- The part of a document that a pointer with percent escapes leads to. -/
def ofPointer (document : Json) (pointer : String) : Except ReferenceError Target :=
  match Text.percentDecode? pointer with
  | none => .error (.notUtf8 pointer)
  | some decoded => follow pointer ⟨[], document⟩ (Pointer.splitSlashes decoded.toList).tail

mutual
/-- The first part of a value that carries an anchor of that name. -/
def anchored? (name : String) (place : Pointer) : Json → Option Target
  | .array items => anchoredItem? name place 0 items
  | .object fields =>
    if (fields.lookup "$id").bind Json.string? == some ("#" ++ name)
    then some ⟨place, .object fields⟩
    else anchoredField? name place fields
  | _ => none

/-- The first of the items, from the given index on. -/
def anchoredItem? (name : String) (place : Pointer) (index : Nat) : List Json → Option Target
  | [] => none
  | item :: rest =>
    (anchored? name (place ++ [toString index]) item).or (anchoredItem? name place (index + 1) rest)

/-- The first of the entries. -/
def anchoredField? (name : String) (place : Pointer) : List (String × Json) → Option Target
  | [] => none
  | (key, value) :: rest => (anchored? name (place ++ [key]) value).or (anchoredField? name place rest)
end

/-- The part of a document that carries an anchor of that name. -/
def ofAnchor (document : Json) (name : String) : Except ReferenceError Target :=
  match anchored? name [] document with
  | some target => .ok target
  | none => .error (.noAnchor name)

/-- The part of a document that a reference leads to. -/
def resolve (document : Json) (reference : String) : Except ReferenceError Target :=
  match reference.toList with
  | [] => .ok ⟨[], document⟩
  | ['#'] => .ok ⟨[], document⟩
  | '#' :: '/' :: rest => ofPointer document (String.ofList ('/' :: rest))
  | '#' :: name => ofAnchor document (String.ofList name)
  | _ => .error (.otherDocument reference)

end Target

end Draft7

end Schemata
