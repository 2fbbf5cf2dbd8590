import Schemata.Pass.Tuple

namespace Schemata

namespace NodeOf

/-- A node that forbids what a schema accepts. -/
def negation (schema : Schema) : Node := { not := some schema }

/-- A condition, together with the branch behind it if there is one. -/
def guarded (condition : Schema) : Option Schema → Schema
  | some branch => .node (everyOf [condition, branch])
  | none => condition

/-- The choice between the two branches of a conditional. -/
def branches (condition : Schema) (consequent alternative : Option Schema) : Node :=
  { anyOf := some (.valid [guarded condition consequent, guarded (.node (negation condition)) alternative]) }

/-- The node with its conditional moved into `allOf`. -/
def unconditional? (n : Node) : Option Node :=
  match n.condition, n.allOf with
  | none, _ => none
  | some _, some (.malformed _) => none
  | some condition, members =>
    let before := (members.bind Slot.valid?).getD []
    let choice := Schema.node (branches condition n.consequent n.alternative)
    some { n with allOf := some (.valid (before ++ [choice])), condition := none, consequent := none,
                  alternative := none }

end NodeOf

def Schema.normalizeConditionals (schema : Schema) : Noted Schema :=
  schema.mapNodes .auxiliary fun n => Noted.ofOption n n.unconditional?

end Schemata
