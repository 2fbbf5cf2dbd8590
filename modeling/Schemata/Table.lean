namespace Schemata

/-- Entries in order, each with its name. -/
abbrev Table (α : Type) := List (String × α)

namespace Table

variable {α β : Type}

/-- The names in order. -/
def keys (table : Table α) : List String := table.map (·.1)

/-- An entry of that name is present. -/
def has (table : Table α) (name : String) : Bool := (table.lookup name).isSome

/-- Gives `name` the value `value`: in place when the name is present, else at the end. -/
def insert (table : Table α) (name : String) (value : α) : Table α :=
  match table with
  | [] => [(name, value)]
  | (other, old) :: rest => if other = name then (other, value) :: rest else (other, old) :: insert rest name value

/-- Inserts every entry of `more`, in order. -/
def insertAll (table more : Table α) : Table α :=
  more.foldl (fun acc entry => insert acc entry.1 entry.2) table

/-- Takes the entry out; the entries after it move up. -/
def erase (table : Table α) (name : String) : Table α :=
  match table with
  | [] => []
  | (other, old) :: rest => if other = name then rest else (other, old) :: erase rest name

/-- Takes the entry out and fills its place with the last entry. -/
def swapErase (table : Table α) (name : String) : Table α :=
  match table with
  | [] => []
  | (other, old) :: rest =>
    if other = name then
      match rest.getLast? with
      | none => []
      | some last => last :: rest.dropLast
    else (other, old) :: swapErase rest name

/-- The same names with every value replaced by its image. -/
def mapValues (f : α → β) (table : Table α) : Table β := table.map fun (name, value) => (name, f value)

/-- No name occurs twice. -/
def Distinct (table : Table α) : Prop := table.keys.Nodup

@[simp] theorem keys_nil : keys ([] : Table α) = [] := rfl

@[simp] theorem keys_cons (name : String) (value : α) (rest : Table α) :
    keys ((name, value) :: rest) = name :: keys rest := rfl

@[simp] theorem keys_mapValues (f : α → β) (table : Table α) : keys (mapValues f table) = keys table := by
  simp [keys, mapValues]

theorem lookup_isSome_iff (table : Table α) (name : String) : (table.lookup name).isSome ↔ name ∈ keys table := by
  induction table with
  | nil => simp
  | cons entry rest ih =>
    obtain ⟨other, value⟩ := entry
    by_cases same : name = other
    · simp [same]
    · have differ : (name == other) = false := by simpa using same
      simp [List.lookup_cons, differ, same, ih]

/-- Inserting under a name that is present keeps the list of names. -/
theorem keys_insert (table : Table α) (name : String) (value : α) :
    keys (insert table name value) = if name ∈ keys table then keys table else keys table ++ [name] := by
  induction table with
  | nil => simp [insert]
  | cons entry rest ih =>
    obtain ⟨other, old⟩ := entry
    by_cases same : other = name
    · simp [insert, same]
    · have differ : ¬ name = other := fun h => same h.symm
      by_cases inside : name ∈ keys rest <;> simp [insert, same, differ, inside, ih]

end Table

end Schemata
