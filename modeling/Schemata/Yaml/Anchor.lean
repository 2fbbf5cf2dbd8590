import Schemata.Yaml.Node
import Schemata.Yaml.Value

namespace Schemata

namespace Yaml

/-- A node whose aliases are numbers. -/
inductive Linked where
  | alias (number : Nat)
  | scalar (tag : Option String) (text : String) (plain : Bool)
  | sequence (tag : Option String) (items : List Linked)
  | mapping (tag : Option String) (entries : List (Linked × Linked))

instance : Inhabited Linked := ⟨.alias 0⟩

/-- The numbers of the anchor names, so far. -/
abbrev Numbering := Table Nat

/-- The nodes that carry a number, in the order in which they start. -/
abbrev Targets := List (Nat × Linked)

namespace Node

/-- The number of an anchor that stands here, and the numbering behind it. -/
def numberAnchor (numbering : Numbering) (properties : Properties) : Option Nat × Numbering :=
  match properties.anchor with
  | none => (none, numbering)
  | some name => (some numbering.length, Table.insert numbering name numbering.length)

/-- The nodes that carry a number when this one may, given those inside it. -/
def targetsFrom (number : Option Nat) (node : Linked) (inside : Targets) : Targets :=
  number.elim inside fun n => (n, node) :: inside

mutual
/-- Numbers the anchors of a node and makes numbers of its aliases; an alias must follow its anchor. -/
def link (numbering : Numbering) : Node → Option (Linked × Targets × Numbering)
  | .alias name => (numbering.lookup name).map fun number => (.alias number, [], numbering)
  | .scalar properties text plain =>
    let (number, numbering) := numberAnchor numbering properties
    let node := .scalar properties.tag text plain
    some (node, targetsFrom number node [], numbering)
  | .sequence properties items => do
    let (number, numbering) := numberAnchor numbering properties
    let (items, inside, numbering) ← linkItems numbering items
    let node := .sequence properties.tag items
    return (node, targetsFrom number node inside, numbering)
  | .mapping properties entries => do
    let (number, numbering) := numberAnchor numbering properties
    let (entries, inside, numbering) ← linkEntries numbering entries
    let node := .mapping properties.tag entries
    return (node, targetsFrom number node inside, numbering)

def linkItems (numbering : Numbering) : List Node → Option (List Linked × Targets × Numbering)
  | [] => some ([], [], numbering)
  | item :: rest => do
    let (item, first, numbering) ← link numbering item
    let (rest, others, numbering) ← linkItems numbering rest
    return (item :: rest, first ++ others, numbering)

/-- Entry by entry, the key before the value. -/
def linkEntries (numbering : Numbering) : List (Node × Node) → Option (List (Linked × Linked) × Targets × Numbering)
  | [] => some ([], [], numbering)
  | (key, value) :: rest => do
    let (key, inKey, numbering) ← link numbering key
    let (value, inValue, numbering) ← link numbering value
    let (rest, others, numbering) ← linkEntries numbering rest
    return ((key, value) :: rest, inKey ++ inValue ++ others, numbering)
end

mutual
/-- How many events a reader of the node meets: one for a scalar or alias, and two for a collection besides
those inside. -/
def events : Node → Nat
  | .alias _ => 1
  | .scalar _ _ _ => 1
  | .sequence _ items => 2 + eventsOfItems items
  | .mapping _ entries => 2 + eventsOfEntries entries

def eventsOfItems : List Node → Nat
  | [] => 0
  | item :: rest => item.events + eventsOfItems rest

def eventsOfEntries : List (Node × Node) → Nat
  | [] => 0
  | (key, value) :: rest => key.events + value.events + eventsOfEntries rest
end

end Node

namespace Linked

/-- How many aliases may still be followed. -/
abbrev Follow := StateT Nat Option

/-- The node that an alias stands for, which spends one of the aliases that may be followed. -/
def follow (targets : Targets) : Linked → Follow Linked
  | .alias number => do
    let left ← get
    if left = 0 then failure
    set (left - 1)
    match (targets.reverse).lookup number with
    | some node => return node
    | none => failure
  | node => return node

/-- The value of a node with its aliases followed, in which collections stand at most so deep; keys of a
mapping must differ. -/
def value (targets : Targets) (depth : Nat) (node : Linked) : Follow Value := do
  match ← follow targets node, depth with
  | .scalar tag text plain, _ => liftM (Value.ofScalar tag text plain)
  | .sequence tag items, depth + 1 => do
    let items ← items.mapM (value targets depth)
    return Value.withTag tag (.sequence items)
  | .mapping tag entries, depth + 1 => do
    let entries ← entries.mapM fun entry => do
      return (← value targets depth entry.1, ← value targets depth entry.2)
    if !Value.keysDiffer (entries.map (·.1)) then failure
    return Value.withTag tag (.mapping entries)
  | _, _ => failure

end Linked

/-- How deep collections may stand in each other. -/
def maxDepth : Nat := 128

/-- The value of a node. Following aliases may take at most a hundred steps for each event. -/
def Value.ofNode (node : Node) : Option Value := do
  let (linked, targets, _) ← node.link []
  let (value, _) ← (linked.value targets maxDepth).run (100 * node.events)
  return value

def Value.ofText (text : String) : Option Value := (Node.ofText text).bind Value.ofNode

end Yaml

end Schemata
