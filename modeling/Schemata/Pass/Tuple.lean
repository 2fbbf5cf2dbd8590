import Schemata.Pass.Noted

namespace Schemata

/-- A node that asks for every member of a list. -/
def NodeOf.everyOf (members : List Schema) : Node := { allOf := some (.valid members) }

namespace NodeOf

/-- What the later elements must satisfy once `items` is positional. -/
def laterItems (n : Node) : Option Schema :=
  match n.items with
  | some (.single rest) =>
    match n.additionalItems with
    | none => some rest
    | some existing => some (.node (everyOf [existing, rest]))
  | _ => n.additionalItems

/-- The positional form, when `prefixItems` is well formed and `items` is not positional yet. -/
def positionalItems? (n : Node) : Option Node :=
  match n.prefixItems, n.items with
  | _, some (.positional _) => none
  | some (.valid schemas), _ =>
    some { n with prefixItems := none, items := some (.positional schemas), additionalItems := n.laterItems }
  | _, _ => none

end NodeOf

def Schema.normalizeTuples (schema : Schema) : Noted Schema :=
  schema.mapNodes .auxiliary fun n => Noted.ofOption n n.positionalItems?

end Schemata
