import Schemata.Pass.Noted
import Schemata.Text.Cut

namespace Schemata

namespace Reference

/-- The start of a canonical reference. -/
def canonicalStart : String := "#/definitions/"

/-- The starts of local references that are not canonical. -/
def localStarts : List String := ["#/components/schemas/", "#/$defs/"]

/-- The canonical form of a local reference; nothing for any other text. -/
def canonical? (reference : String) : Option String :=
  localStarts.findSome? fun start => (Text.dropStart? start reference).map (canonicalStart ++ ·)

/-- Where a definition moved: its reference before and after. -/
structure Move where
  source : String
  target : String

/-- The reference after a move; nothing when it does not lead to the moved definition or below it. -/
def Move.redirected? (move : Move) (reference : String) : Option String :=
  match Text.dropStart? move.source reference with
  | some rest => if rest.isEmpty || Text.startsWith rest "/" then some (move.target ++ rest) else none
  | none => none

/-- The reference after the first move that concerns it, else its canonical form. -/
def target? (moves : List Move) (reference : String) : Option String :=
  (moves.findSome? (·.redirected? reference)).or (canonical? reference)

end Reference

namespace NodeOf

/-- The node with its reference redirected, when that changes it. -/
def redirect? (moves : List Reference.Move) (n : Node) : Option Node :=
  match n.reference with
  | some (.valid reference) =>
    match Reference.target? moves reference with
    | some target => if target = reference then none else some { n with reference := some (.valid target) }
    | none => none
  | _ => none

end NodeOf

namespace Schema

/-- Changes every reference by the moves, or to its canonical form. -/
def redirect (moves : List Reference.Move) (schema : Schema) : Noted Schema :=
  schema.mapNodes .auxiliary fun n => Noted.ofOption n (n.redirect? moves)

def normalizeReferences (schema : Schema) : Noted Schema := schema.redirect []

end Schema

end Schemata
