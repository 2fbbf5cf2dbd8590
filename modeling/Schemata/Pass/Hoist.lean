import Schemata.Naming
import Schemata.Pass.Reference
import Schemata.Schema.Reader

namespace Schemata

/-- The keywords of a block of definitions. -/
def blockKeywords : List String := ["$defs", "definitions"]

namespace NodeOf

/-- The block under a keyword, when it is an object. -/
def block? (n : Node) (keyword : String) : Option (Table Json) := (n.extra.lookup keyword).bind Json.object?

/-- Every entry of every block, with the keyword of its block. -/
def blockEntries (n : Node) : List (String × String × Json) :=
  blockKeywords.flatMap fun keyword => ((n.block? keyword).getD []).map fun (name, value) => (keyword, name, value)

/-- The node without the block under a keyword. -/
def withoutBlock (n : Node) (keyword : String) : Node :=
  if (n.block? keyword).isSome then { n with extra := Table.erase n.extra keyword } else n

def withoutBlocks (n : Node) : Node := blockKeywords.foldl withoutBlock n

end NodeOf

/-- The move of an entry out of its owner's block. -/
def Reference.Move.ofEntry (keyword entry name : String) : Reference.Move :=
  ⟨"#/" ++ keyword ++ "/" ++ Pointer.escape entry, canonicalStart ++ Pointer.escape name⟩

/-- Gives every entry its name in the table. -/
def NameAllocator.nameEntries (names : NameAllocator) :
    List (String × String × Json) → List (String × Reference.Move × Json) × NameAllocator
  | [] => ([], names)
  | (keyword, entry, value) :: rest =>
    let (name, names) := names.allocate entry
    let (others, names) := names.nameEntries rest
    ((name, Reference.Move.ofEntry keyword entry name, value) :: others, names)

/-- What hoisting makes of one schema: the schema without blocks, the new definitions in order, and the
names taken. -/
structure Hoisted where
  schema : Schema
  added : Table Schema
  names : NameAllocator

/-- Hoists every schema of a list of entries; what an entry adds comes after all entries. -/
def hoistEntries (hoist : NameAllocator → Schema → Hoisted) (names : NameAllocator) :
    Table Schema → Table Schema × Table Schema × NameAllocator
  | [] => ([], [], names)
  | (name, schema) :: rest =>
    let first := hoist names schema
    let (others, added, names) := hoistEntries hoist first.names rest
    ((name, first.schema) :: others, first.added ++ added, names)

namespace Schema

/-- Hoists blocks that are nested at most `levels` deep. -/
def hoistWithin : Nat → NameAllocator → Schema → Hoisted
  | levels + 1, names, .node n =>
    match n.blockEntries with
    | [] => ⟨.node n.withoutBlocks, [], names⟩
    | entries =>
      let (named, names) := names.nameEntries entries
      let moves := named.map fun (_, move, _) => move
      let owner := (redirect moves (.node n.withoutBlocks)).value
      let table := named.map fun (name, _, value) => (name, (redirect moves (ofJson value)).value)
      let (table, added, names) := hoistEntries (hoistWithin levels) names table
      ⟨owner, table ++ added, names⟩
  | _, names, schema => ⟨schema, [], names⟩

/-- An upper bound of how deep blocks are nested in one another. -/
def blockLevels : Schema → Nat
  | .node n => 1 + (Json.object n.extra).depth
  | _ => 0

/-- Takes all blocks out of a schema. -/
def hoist (names : NameAllocator) (schema : Schema) : Hoisted := hoistWithin schema.blockLevels names schema

end Schema

/-- Moves the blocks of all definitions into the table. The flag says whether there was an entry to move. -/
def hoistDefinitions (definitions : Table Schema) : Table Schema × Bool :=
  let names := NameAllocator.reserving (Table.keys definitions)
  let (owners, added, _) := hoistEntries Schema.hoist names definitions
  (owners ++ added, !added.isEmpty)

end Schemata
