import Schemata.Schema.Children

namespace Schemata

namespace Schema

/-- The level that a change adds at a nullable node. -/
def flagHeight : Option (Slot Bool) → Nat
  | some (.valid true) => 1
  | _ => 0

mutual
/-- How many nodes a walk may pass one below another. -/
def height : Schema → Nat
  | .bool _ => 0
  | .malformed _ => 0
  | .node n => 1 + nodeHeight n

/-- The height below a node, with the levels that a change of the node may add. -/
def nodeHeight : Node → Nat
  | { properties, items, prefixItems, additionalItems, additionalProperties, allOf, anyOf, oneOf, not, condition,
      consequent, alternative, nullable, .. } =>
    flagHeight nullable + max (propertiesHeight properties) (max (itemsHeight items) (max (slotHeight prefixItems)
      (max (raisedHeight 1 additionalItems) (max (raisedHeight 0 additionalProperties) (max (slotHeight allOf)
      (max (slotHeight anyOf) (max (slotHeight oneOf) (max (raisedHeight 0 not) (max (raisedHeight 3 condition)
      (max (raisedHeight 2 consequent) (raisedHeight 2 alternative)))))))))))

/-- The height of the tallest property. -/
def propertiesHeight : Option (Slot (List (String × Schema))) → Nat
  | some (.valid table) => tableHeight table
  | _ => 0

/-- The height under `items`, where a single schema may come to stand one level further down. -/
def itemsHeight : Option (Items Schema) → Nat
  | some (.positional schemas) => listHeight schemas
  | some (.single schema) => 1 + height schema
  | none => 0

/-- The height of a schema that may be absent, and that a change may put `levels` further down. -/
def raisedHeight (levels : Nat) : Option Schema → Nat
  | some schema => levels + height schema
  | none => 0

/-- The height of the tallest schema of a slot. -/
def slotHeight : Option (Slot (List Schema)) → Nat
  | some (.valid schemas) => listHeight schemas
  | _ => 0

/-- The height of the tallest schema of a list. -/
def listHeight : List Schema → Nat
  | [] => 0
  | schema :: rest => max (height schema) (listHeight rest)

/-- The height of the tallest schema of a table. -/
def tableHeight : List (String × Schema) → Nat
  | [] => 0
  | (_, schema) :: rest => max (height schema) (tableHeight rest)
end

variable {m : Type → Type} [Monad m]

/-- Replaces the nodes of the uppermost `levels` levels. -/
def mapWithin (reach : Reach) (step : Node → m Node) : Nat → Schema → m Schema
  | levels + 1, .node n => do
    let n ← step n
    return .node (← n.replaceChildren reach (mapWithin reach step levels))
  | _, schema => pure schema

/-- Replaces every node: the node itself first, then the subschemas of the node that it became. -/
def mapNodes (reach : Reach) (step : Node → m Node) (schema : Schema) : m Schema :=
  mapWithin reach step schema.height schema

/-- Hands the nodes of the uppermost `levels` levels to a visitor. -/
def visitWithin (reach : Reach) (visit : Node → m PUnit) : Nat → Schema → m PUnit
  | levels + 1, .node n => do
    visit n
    (n.children reach).forM fun (_, child) => visitWithin reach visit levels child
  | _, _ => pure ⟨⟩

/-- Hands every node to a visitor, each before its subschemas. -/
def visitNodes (reach : Reach) (visit : Node → m PUnit) (schema : Schema) : m PUnit :=
  visitWithin reach visit schema.height schema

/-- The nodes of the uppermost `levels` levels, in the order of a walk. -/
def nodesWithin (reach : Reach) : Nat → Schema → List Node
  | levels + 1, .node n => n :: (n.children reach).flatMap fun (_, child) => nodesWithin reach levels child
  | _, _ => []

/-- Every node, in the order of a walk. -/
def nodes (reach : Reach) (schema : Schema) : List Node := nodesWithin reach schema.height schema

end Schema

end Schemata
