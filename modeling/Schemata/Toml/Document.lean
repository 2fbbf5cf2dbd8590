import Schemata.Json.Basic

namespace Schemata

namespace Toml

/-- How a table came to be. -/
inductive Origin where
  /-- By a header of its own. -/
  | header
  /-- By the header of a table inside it. -/
  | implied
  /-- By a dotted key. -/
  | dotted
deriving DecidableEq

inductive Item where
  | text (value : String)
  | bool (value : Bool)
  | int (value : Int)
  | list (items : List Item)
  | inlined (entries : List (String × Item))
  | table (origin : Origin) (entries : List (String × Item))
  | tables (elements : List (List (String × Item)))

abbrev Entries := Table Item

/-- Changes the table at the end of a path. Tables on the way that are missing are made; of an array of tables
it is the last. On a dotted path no table may have been opened by a header. -/
def atPath (viaDots : Bool) (change : Bool → Entries → Option Entries) :
    List String → Bool → Entries → Option Entries
  | [], isDotted, entries => change isDotted entries
  | key :: rest, _, entries =>
    match entries.lookup key with
    | none => do
      let made ← atPath viaDots change rest viaDots []
      return Table.insert entries key (.table (if viaDots then .dotted else .implied) made)
    | some (.table origin inner) => do
      if viaDots && origin == .header then none
      let changed ← atPath viaDots change rest (origin == .dotted) inner
      return Table.insert entries key (.table origin changed)
    | some (.tables elements) => do
      let last ← elements.getLast?
      let changed ← atPath viaDots change rest false last
      return Table.insert entries key (.tables (elements.dropLast ++ [changed]))
    | some _ => none

/-- Adds an entry whose key is dotted if it has more than one part. -/
def assign (key : List String) (value : Item) (entries : Entries) : Option Entries := do
  let last ← key.getLast?
  let path := key.dropLast
  atPath true (fun isDotted inner =>
    if isDotted == path.isEmpty || Table.has inner last then none else some (inner ++ [(last, value)])) path false entries

/-- Opens the table of a header. -/
def openTable (path : List String) (entries : Entries) : Option Entries := do
  let last ← path.getLast?
  atPath false (fun _ inner =>
    match inner.lookup last with
    | none => some (inner ++ [(last, .table .header [])])
    | some (.table .implied old) => some (Table.insert inner last (.table .header old))
    | some _ => none) path.dropLast false entries

/-- Opens a further table of an array of tables. -/
def openElement (path : List String) (entries : Entries) : Option Entries := do
  let last ← path.getLast?
  atPath false (fun _ inner =>
    match inner.lookup last with
    | none => some (inner ++ [(last, .tables [[]])])
    | some (.tables elements) => some (Table.insert inner last (.tables (elements ++ [[]])))
    | some _ => none) path.dropLast false entries

/-- Adds an entry to the table that the last header opened. -/
def assignUnder (header key : List String) (value : Item) (entries : Entries) : Option Entries :=
  atPath false (fun _ inner => assign key value inner) header false entries

namespace Item

mutual
def toJson : Item → Json
  | text value => .string value
  | bool value => .bool value
  | int value => ((Number.ofInt? value).map Json.number).getD .null
  | list items => .array (itemsToJson items)
  | inlined entries => .object (entriesToJson entries)
  | table _ entries => .object (entriesToJson entries)
  | tables elements => .array (elementsToJson elements)

def itemsToJson : List Item → List Json
  | [] => []
  | item :: rest => item.toJson :: itemsToJson rest

def entriesToJson : List (String × Item) → Table Json
  | [] => []
  | (key, item) :: rest => (key, item.toJson) :: entriesToJson rest

def elementsToJson : List (List (String × Item)) → List Json
  | [] => []
  | entries :: rest => .object (entriesToJson entries) :: elementsToJson rest
end

end Item

end Toml

end Schemata
