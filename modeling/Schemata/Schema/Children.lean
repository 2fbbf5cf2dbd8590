import Schemata.Json.Pointer
import Schemata.Schema.Basic

namespace Schemata

/-- Which keywords count as holding subschemas: `auxiliary` adds `not` and `additionalItems`. -/
inductive Reach where
  | keywords
  | auxiliary
deriving DecidableEq, Repr

/-- The schemas of a list under a keyword, from position `start` on. -/
def Pointer.indexed {S : Type} (key : String) (start : Nat) : List S → List (Pointer × S)
  | [] => []
  | schema :: rest => ([key, toString start], schema) :: indexed key (start + 1) rest

namespace NodeOf

variable {S T : Type}

/-- The schemas of a table under a keyword. -/
def tableChildren (key : String) : Option (Slot (List (String × S))) → List (Pointer × S)
  | some (.valid table) => table.map fun (name, schema) => ([key, name], schema)
  | _ => []

/-- The schemas of a list under a keyword. -/
def listChildren (key : String) : Option (Slot (List S)) → List (Pointer × S)
  | some (.valid schemas) => Pointer.indexed key 0 schemas
  | _ => []

/-- The schemas under `items`. -/
def itemsChildren : Option (Items S) → List (Pointer × S)
  | some (.positional schemas) => Pointer.indexed "items" 0 schemas
  | some (.single schema) => [(["items"], schema)]
  | none => []

/-- The schema under a keyword. -/
def schemaChildren (key : String) : Option S → List (Pointer × S)
  | some schema => [([key], schema)]
  | none => []

/-- The subschemas within reach, each with its path from the node. -/
def children (reach : Reach) (n : NodeOf S) : List (Pointer × S) :=
  tableChildren "properties" n.properties ++ itemsChildren n.items
    ++ schemaChildren "additionalProperties" n.additionalProperties
    ++ listChildren "allOf" n.allOf ++ listChildren "anyOf" n.anyOf ++ listChildren "oneOf" n.oneOf
    ++ listChildren "prefixItems" n.prefixItems
    ++ schemaChildren "if" n.condition ++ schemaChildren "then" n.consequent
    ++ schemaChildren "else" n.alternative
    ++ match reach with
      | .keywords => []
      | .auxiliary => schemaChildren "not" n.not ++ schemaChildren "additionalItems" n.additionalItems

variable {m : Type → Type} [Monad m]

/-- Replaces the schemas of a table, in order. -/
def replaceTable (f : S → m S) : List (String × S) → m (List (String × S))
  | [] => pure []
  | (name, schema) :: rest => do
    let schema ← f schema
    return (name, schema) :: (← replaceTable f rest)

/-- Replaces the schemas of a list, in order. -/
def replaceList (f : S → m S) : List S → m (List S)
  | [] => pure []
  | schema :: rest => do
    let schema ← f schema
    return schema :: (← replaceList f rest)

/-- Replaces what a well-formed slot holds. -/
def replaceSlot (f : T → m T) : Option (Slot T) → m (Option (Slot T))
  | some (.valid value) => do return some (.valid (← f value))
  | slot => pure slot

/-- Replaces the schemas under `items`, in order. -/
def replaceItems (f : S → m S) : Option (Items S) → m (Option (Items S))
  | some (.positional schemas) => do return some (.positional (← replaceList f schemas))
  | some (.single schema) => do return some (.single (← f schema))
  | none => pure none

/-- Replaces a schema that is present. -/
def replaceSchema (f : S → m S) : Option S → m (Option S)
  | some schema => do return some (← f schema)
  | none => pure none

/-- The node with every subschema within reach replaced, in the order of `children`. -/
def replaceChildren (reach : Reach) (f : S → m S) (n : NodeOf S) : m (NodeOf S) := do
  let properties ← replaceSlot (replaceTable f) n.properties
  let items ← replaceItems f n.items
  let additionalProperties ← replaceSchema f n.additionalProperties
  let allOf ← replaceSlot (replaceList f) n.allOf
  let anyOf ← replaceSlot (replaceList f) n.anyOf
  let oneOf ← replaceSlot (replaceList f) n.oneOf
  let prefixItems ← replaceSlot (replaceList f) n.prefixItems
  let condition ← replaceSchema f n.condition
  let consequent ← replaceSchema f n.consequent
  let alternative ← replaceSchema f n.alternative
  let n := { n with properties, items, additionalProperties, allOf, anyOf, oneOf, prefixItems, condition,
                    consequent, alternative }
  match reach with
  | .keywords => return n
  | .auxiliary =>
    let not ← replaceSchema f n.not
    let additionalItems ← replaceSchema f n.additionalItems
    return { n with not, additionalItems }

end NodeOf

end Schemata
