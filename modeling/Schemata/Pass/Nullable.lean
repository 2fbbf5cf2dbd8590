import Schemata.Pass.Noted
import Schemata.Text.Cut

namespace Schemata

/-- The keys that describe a schema and ask for nothing. -/
def annotationKeys : List String :=
  ["title", "description", "default", "example", "examples", "deprecated", "readOnly", "writeOnly"]

/-- A key that describes a schema: one of the listed, or one that starts with `x-`. -/
def onlyDescribes (key : String) : Bool := annotationKeys.contains key || Text.startsWith key "x-"

namespace NodeOf

/-- The node that accepts null alone. -/
def nullType : Node := { types := some (.valid (.single "null")) }

/-- The type names with null among them; a list that has null is kept. -/
def withNull (types : TypeNames) : TypeNames :=
  if types.names.contains "null" then types else .multiple (types.names ++ ["null"])

/-- The members with null among them. -/
def enumWithNull : Slot (List Json) → Slot (List Json)
  | .valid values => .valid (if values.any (·.same .null) then values else values ++ [.null])
  | slot => slot

/-- The node with null as an alternative; nothing when `type` is malformed. -/
def admitNull? (n : Node) : Option Node :=
  match n.types with
  | some (.malformed _) => none
  | some (.valid types) =>
    some { n with types := some (.valid (withNull types)), enum := n.enum.map enumWithNull, nullable := none }
  | none =>
    let annotations := n.extra.filter fun (key, _) => onlyDescribes key
    let inner := { n with nullable := none, extra := n.extra.filter fun (key, _) => !onlyDescribes key }
    if inner.isEmpty then some { extra := annotations }
    else some { anyOf := some (.valid [.node inner, .node nullType]), extra := annotations }

/-- The node without its flag. -/
def resolveNullable? (n : Node) : Option Node :=
  match n.nullable with
  | some (.valid false) => some { n with nullable := none }
  | some (.valid true) => n.admitNull?
  | _ => none

end NodeOf

def Schema.normalizeNullable (schema : Schema) : Noted Schema :=
  schema.mapNodes .auxiliary fun n => Noted.ofOption n n.resolveNullable?

end Schemata
