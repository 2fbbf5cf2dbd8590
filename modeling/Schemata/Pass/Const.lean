import Schemata.Pass.Noted

namespace Schemata

namespace NodeOf

/-- Completes `const` by `type` and `enum`. -/
def completeConst (n : Node) : Noted Node :=
  match n.const with
  | none => { value := n }
  | some value =>
    { value :=
        { n with
          types := some (n.types.getD (.valid (.single value.tag.name)))
          enum := some (n.enum.getD (.valid [value])) }
      changed := n.types.isNone || n.enum.isNone
      found := [value] }

end NodeOf

namespace Schema

def normalizeConst (schema : Schema) : Noted Schema := schema.mapNodes .keywords NodeOf.completeConst

/-- Some node within reach has `const`. -/
def hasConst (schema : Schema) : Bool := (schema.nodes .keywords).any (·.const.isSome)

/-- The values of all `const` keywords within reach, in the order of a walk. -/
def constValues (schema : Schema) : List Json := (schema.nodes .keywords).filterMap (·.const)

end Schema

end Schemata
