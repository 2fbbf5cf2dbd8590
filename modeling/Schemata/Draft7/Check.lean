import Schemata.Draft7.Keyword
import Schemata.Draft7.Reference

namespace Schemata

namespace Draft7

/-- What a spot breaks of a schema inside `document`, for as many nested steps as `fuel` allows. -/
def findingsAt (document : Json) : Nat → Json → Spot → List Finding
  | 0, _, _ => []
  | _ + 1, .bool value, spot => spot.require value .neverAllowed
  | fuel + 1, .object fields, spot =>
    match fields.lookup "$ref" with
    | some (.string reference) =>
      match Target.resolve document reference with
      | .ok target =>
        if spot.followed.contains target.place then []
        else findingsAt document fuel target.schema (spot.follow target.place)
      | .error _ => []
    | _ => Keyword.rules.flatMap fun (name, rule) =>
      match fields.lookup name with
      | some value => rule (findingsAt document fuel) fields value (spot.under name)
      | none => []
  | _, _, _ => []

/-- Between two steps into the value a check follows references to every part of the schema at most once, and between
two references it meets no more parts than there are. -/
def enoughFuel (schema value : Json) : Nat := (value.depth + 1) * ((schema.size + 1) * (schema.size + 1))

/-- What the value breaks of the schema, in order. -/
def findings (schema value : Json) : List Finding :=
  findingsAt schema (enoughFuel schema value) schema (.whole value)

end Draft7

end Schemata
