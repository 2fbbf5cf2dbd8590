import Schemata.Proofs.Pass.HoistNames

namespace Schemata

/-- What the loop goes on with: the table as it is, the names whose blocks were not looked at yet, the next one first, the
names taken, and whether an entry was moved. -/
structure Worklist where
  table : Table Schema
  pending : List String
  names : NameAllocator
  moved : Bool

namespace Worklist

/-- All definitions wait for their turn. -/
def start (definitions : Table Schema) : Worklist :=
  ⟨definitions, Table.keys definitions, .reserving (Table.keys definitions), false⟩

/-- One turn of the loop; nothing when no name is left. -/
def turn (work : Worklist) : Option Worklist :=
  match work.pending with
  | [] => none
  | owner :: pending =>
    match work.table.lookup owner with
    | some (.node n) =>
      match n.blockEntries with
      | [] => some { work with table := Table.insert work.table owner (.node n.withoutBlocks), pending }
      | entries =>
        let (named, names) := work.names.nameEntries entries
        let moves := named.map fun (_, move, _) => move
        let rewritten := Table.insert work.table owner (Schema.redirect moves (.node n.withoutBlocks)).value
        let added := named.map fun (name, _, value) => (name, (Schema.redirect moves (.ofJson value)).value)
        some ⟨Table.insertAll rewritten added, Table.keys added ++ pending, names, true⟩
    | _ => some { work with pending }

/-- The loop gets from one state to another in so many turns. -/
inductive Reaches : Nat → Worklist → Worklist → Prop
  | here (work : Worklist) : Reaches 0 work work
  | turn {turns : Nat} {work next last : Worklist} (first : work.turn = some next) (others : Reaches turns next last) :
      Reaches (turns + 1) work last

theorem Reaches.trans {turns turns' : Nat} {first second third : Worklist} (one : Reaches turns first second)
    (two : Reaches turns' second third) : Reaches (turns + turns') first third := by
  induction one with
  | here => rwa [Nat.zero_add]
  | turn first _ ih =>
    rw [Nat.add_right_comm]
    exact .turn first (ih two)

theorem turn_of_nil {work : Worklist} (none : work.pending = []) : work.turn = .none := by
  rw [turn, none]

end Worklist

namespace Table

variable {α : Type} {before after : Table α} {name : String} {value : α}

theorem not_mem_keys_before (distinct : Distinct (before ++ (name, value) :: after)) : name ∉ keys before := by
  rw [Distinct, keys_append, keys_cons] at distinct
  exact fun used => List.disjoint_of_nodup_append distinct used List.mem_cons_self

theorem lookup_middle (distinct : Distinct (before ++ (name, value) :: after)) :
    (before ++ (name, value) :: after).lookup name = some value :=
  lookup_of_mem distinct (List.mem_append_right _ List.mem_cons_self)

/-- Inserting under a name that is present replaces its value where it stands. -/
theorem insert_middle (distinct : Distinct (before ++ (name, value) :: after)) (new : α) :
    Table.insert (before ++ (name, value) :: after) name new = before ++ (name, new) :: after := by
  have fresh := not_mem_keys_before distinct
  clear distinct
  induction before with
  | nil => simp [Table.insert]
  | cons entry rest ih =>
    obtain ⟨other, old⟩ := entry
    rw [keys_cons, List.mem_cons, not_or] at fresh
    rw [List.cons_append, Table.insert, if_neg (Ne.symm fresh.1), ih fresh.2, List.cons_append]

end Table

namespace Schema

theorem blockLevels_redirect (moves : List Reference.Move) (schema : Schema) :
    (redirect moves schema).value.blockLevels = schema.blockLevels := by
  cases schema with
  | node n =>
    obtain ⟨n', same, extra⟩ := redirect_node_extra moves n
    rw [same, blockLevels, blockLevels, extra]
  | bool value => rw [redirect_bool]
  | malformed value => rw [redirect_malformed]

end Schema

section

variable (hoist : NameAllocator → Schema → Hoisted) (names : NameAllocator)

theorem hoistEntries_cons (entry : String × Schema) (rest : Table Schema) :
    let first := hoist names entry.2
    let others := hoistEntries hoist first.names rest
    hoistEntries hoist names (entry :: rest) =
      ((entry.1, first.schema) :: others.1, first.added ++ others.2.1, others.2.2) := rfl

theorem keys_hoistEntries (table : Table Schema) :
    Table.keys (hoistEntries hoist names table).1 = Table.keys table := by
  induction table generalizing names with
  | nil => rfl
  | cons entry rest ih => rw [hoistEntries_cons, Table.keys_cons, ih, Table.keys_cons]

theorem length_hoistEntries (table : Table Schema) : (hoistEntries hoist names table).1.length = table.length := by
  simpa only [Table.keys, List.length_map] using congrArg List.length (keys_hoistEntries hoist names table)

end

theorem NameAllocator.nameEntries_gives (names : NameAllocator) (entries : List (String × String × Json)) :
    names.Gives (names.nameEntries entries).2 ((names.nameEntries entries).1.map (·.1)) := by
  have gives := names.allocateAll_gives (entries.map fun entry => entry.2.1)
  have length := names.length_allocateAll (entries.map fun entry => entry.2.1)
  rw [List.length_map] at length
  rw [nameEntries_eq, List.map_map]
  change names.Gives _ ((entries.zip _).map (·.2))
  rwa [List.map_snd_zip (Nat.le_of_eq length)]

namespace Worklist

/-- The table names nothing twice, and all its names are taken. -/
structure Sound (table : Table Schema) (names : NameAllocator) : Prop where
  distinct : Table.Distinct table
  taken : ∀ name ∈ Table.keys table, name ∈ names.taken

/-- Entries under names that were given can be added. -/
theorem Sound.append {table added : Table Schema} {names names' : NameAllocator} (sound : Sound table names)
    (gives : names.Gives names' (Table.keys added)) : Sound (table ++ added) names' where
  distinct := by
    rw [Table.Distinct, Table.keys_append]
    refine List.nodup_append.mpr ⟨sound.distinct, gives.distinct, ?_⟩
    rintro name old _ new rfl
    exact gives.free name new (sound.taken name old)
  taken := by
    intro name member
    rw [Table.keys_append, List.mem_append] at member
    exact (gives.taken name).mpr (member.imp_left (sound.taken name))

theorem Sound.congr {table table' : Table Schema} {names : NameAllocator} (sound : Sound table names)
    (same : Table.keys table' = Table.keys table) : Sound table' names where
  distinct := show (Table.keys table').Nodup from same ▸ sound.distinct
  taken := same ▸ sound.taken

/-- From the turn of a definition on, the loop does with it and everything in its blocks what the recursion does. -/
def Follows (hoist : NameAllocator → Schema → Hoisted) (entry : String × Schema) : Prop :=
  ∀ before after pending names moved, Sound (before ++ entry :: after) names →
    names.Gives (hoist names entry.2).names (Table.keys (hoist names entry.2).added) ∧
    Reaches (1 + (hoist names entry.2).added.length) ⟨before ++ entry :: after, entry.1 :: pending, names, moved⟩
      ⟨before ++ (entry.1, (hoist names entry.2).schema) :: (after ++ (hoist names entry.2).added), pending,
        (hoist names entry.2).names, moved || !(hoist names entry.2).added.isEmpty⟩

/-- What the loop does with every definition it does with all of them, one after the other. -/
theorem reaches_hoistEntries {hoist : NameAllocator → Schema → Hoisted} {table : Table Schema}
    (each : ∀ entry ∈ table, Follows hoist entry) (before after : Table Schema) (pending : List String)
    (names : NameAllocator) (moved : Bool) (sound : Sound (before ++ (table ++ after)) names) :
    names.Gives (hoistEntries hoist names table).2.2 (Table.keys (hoistEntries hoist names table).2.1) ∧
    Reaches (table.length + (hoistEntries hoist names table).2.1.length)
      ⟨before ++ (table ++ after), Table.keys table ++ pending, names, moved⟩
      ⟨before ++ ((hoistEntries hoist names table).1 ++ (after ++ (hoistEntries hoist names table).2.1)), pending,
        (hoistEntries hoist names table).2.2, moved || !(hoistEntries hoist names table).2.1.isEmpty⟩ := by
  induction table generalizing before after names moved with
  | nil =>
    refine ⟨names.gives_nil, ?_⟩
    simp only [hoistEntries, List.append_nil, List.isEmpty_nil, Bool.not_true, Bool.or_false]
    exact .here _
  | cons entry rest ih =>
    obtain ⟨gives, first⟩ := each entry List.mem_cons_self before (rest ++ after) (Table.keys rest ++ pending) names moved
      sound
    rw [hoistEntries_cons]
    generalize hoist names entry.2 = one at gives first ⊢
    -- the entry at hand is done and belongs to what stands before the others
    have further : Sound ((before ++ [(entry.1, one.schema)]) ++ (rest ++ (after ++ one.added))) one.names := by
      refine (sound.append gives).congr ?_
      simp only [Table.keys, List.map_append, List.map_cons, List.append_assoc, List.cons_append, List.nil_append]
    obtain ⟨given, others⟩ := ih (fun entry member => each entry (List.mem_cons_of_mem _ member)) _ _ one.names
      (moved || !one.added.isEmpty) further
    generalize hoistEntries hoist one.names rest = all at given others ⊢
    simp only [List.append_assoc, List.cons_append, List.nil_append] at first others
    refine ⟨?_, ?_⟩
    · rw [Table.keys_append]
      exact gives.append given
    · have turns : (entry :: rest).length + (one.added ++ all.2.1).length =
          1 + one.added.length + (rest.length + all.2.1.length) := by
        rw [List.length_cons, List.length_append]
        omega
      have flag : (moved || !(one.added ++ all.2.1).isEmpty) =
          (moved || !one.added.isEmpty || !all.2.1.isEmpty) := by
        cases one.added <;> simp
      rw [turns, flag]
      exact first.trans others

/-- A definition without entries in blocks takes one turn. -/
theorem follows_of_bare {hoist : NameAllocator → Schema → Hoisted} {name : String} {schema bare : Schema}
    (nothing : ∀ names, hoist names schema = ⟨bare, [], names⟩)
    (dropped : ∀ before after pending names moved, Sound (before ++ (name, schema) :: after) names →
      turn ⟨before ++ (name, schema) :: after, name :: pending, names, moved⟩ =
        some ⟨before ++ (name, bare) :: after, pending, names, moved⟩) : Follows hoist (name, schema) := by
  intro before after pending names moved sound
  simp only [nothing, List.append_nil, List.isEmpty_nil, Bool.not_true, Bool.or_false, List.length_nil]
  exact ⟨names.gives_nil, .turn (dropped before after pending names moved sound) (.here _)⟩

theorem follows_bool (levels : Nat) (name : String) (value : Bool) :
    Follows (Schema.hoistWithin levels) (name, .bool value) := by
  refine follows_of_bare (fun names => by cases levels <;> rfl) fun before after pending names moved sound => ?_
  simp only [turn, Table.lookup_middle sound.distinct]

theorem follows_malformed (levels : Nat) (name : String) (value : Json) :
    Follows (Schema.hoistWithin levels) (name, .malformed value) := by
  refine follows_of_bare (fun names => by cases levels <;> rfl) fun before after pending names moved sound => ?_
  simp only [turn, Table.lookup_middle sound.distinct]

section

variable {n : Node}

/-- The entries of the blocks of a node as they join the table, and the names taken afterwards. -/
def joining (names : NameAllocator) (n : Node) : Table Schema × NameAllocator :=
  let named := names.nameEntries n.blockEntries
  let moves := named.1.map fun (_, move, _) => move
  (named.1.map fun (name, _, value) => (name, (Schema.redirect moves (.ofJson value)).value), named.2)

/-- The node after its blocks were taken out and its references follow the move. -/
def vacated (names : NameAllocator) (n : Node) : Schema :=
  (Schema.redirect ((names.nameEntries n.blockEntries).1.map fun (_, move, _) => move) (.node n.withoutBlocks)).value

theorem joining_gives (names : NameAllocator) (n : Node) :
    names.Gives (joining names n).2 (Table.keys (joining names n).1) := by
  have gives := names.nameEntries_gives n.blockEntries
  rwa [joining, Table.keys, List.map_map]

theorem length_joining (names : NameAllocator) (n : Node) : (joining names n).1.length = n.blockEntries.length := by
  rw [joining, List.length_map, NameAllocator.nameEntries_eq, List.length_map, List.length_zip,
    NameAllocator.length_allocateAll, List.length_map, min_self]

theorem blockLevels_of_mem_joining {names : NameAllocator} {entry : String × Schema}
    (member : entry ∈ (joining names n).1) : entry.2.blockLevels < (Schema.node n).blockLevels := by
  rw [joining, NameAllocator.nameEntries_eq] at member
  obtain ⟨named, inside, rfl⟩ := List.mem_map.mp member
  obtain ⟨pair, listed, rfl⟩ := List.mem_map.mp inside
  rw [Schema.blockLevels_redirect]
  exact @Schema.blockLevels_lt_of_entry (.node n) _ (List.of_mem_zip listed).1

theorem hoistWithin_node (levels : Nat) (names : NameAllocator) (some : n.blockEntries ≠ []) :
    let inner := hoistEntries (Schema.hoistWithin levels) (joining names n).2 (joining names n).1
    Schema.hoistWithin (levels + 1) names (.node n) = ⟨vacated names n, inner.1 ++ inner.2.1, inner.2.2⟩ := by
  rw [Schema.hoistWithin]
  split
  · rename_i none
    exact absurd none some
  · rfl

theorem turn_node {before after : Table Schema} {name : String} {names : NameAllocator}
    (sound : Sound (before ++ (name, .node n) :: after) names) (some : n.blockEntries ≠ []) (pending : List String)
    (moved : Bool) :
    turn ⟨before ++ (name, .node n) :: after, name :: pending, names, moved⟩ =
      .some ⟨before ++ (name, vacated names n) :: (after ++ (joining names n).1),
        Table.keys (joining names n).1 ++ pending, (joining names n).2, true⟩ := by
  have room : Sound ((before ++ (name, vacated names n) :: after) ++ (joining names n).1) (joining names n).2 := by
    refine (sound.append (joining_gives names n)).congr ?_
    simp only [Table.keys, List.map_append, List.map_cons]
  have table : Table.insertAll (Table.insert (before ++ (name, .node n) :: after) name (vacated names n))
      (joining names n).1 = before ++ (name, vacated names n) :: (after ++ (joining names n).1) := by
    rw [Table.insert_middle sound.distinct, Table.insertAll_of_distinct room.distinct, List.append_assoc,
      List.cons_append]
  rw [← table]
  simp only [turn, Table.lookup_middle sound.distinct]
  rfl

end

/-- The loop follows the recursion, as deep as blocks are nested. -/
theorem follows_hoistWithin {levels : Nat} {entry : String × Schema} (enough : entry.2.blockLevels ≤ levels) :
    Follows (Schema.hoistWithin levels) entry := by
  induction levels generalizing entry with
  | zero =>
    obtain ⟨name, schema⟩ := entry
    cases schema with
    | bool value => exact follows_bool 0 name value
    | malformed value => exact follows_malformed 0 name value
    | node n => simp [Schema.blockLevels] at enough
  | succ levels ih =>
    obtain ⟨name, schema⟩ := entry
    cases schema with
    | bool value => exact follows_bool _ name value
    | malformed value => exact follows_malformed _ name value
    | node n =>
      by_cases none : n.blockEntries = []
      · have nothing (names : NameAllocator) : Schema.hoistWithin (levels + 1) names (.node n) =
            ⟨.node n.withoutBlocks, [], names⟩ := by rw [Schema.hoistWithin, none]
        refine follows_of_bare nothing fun _ _ _ _ _ sound => ?_
        simp only [turn, Table.lookup_middle sound.distinct, none, Table.insert_middle sound.distinct]
      · intro before after pending names moved sound
        have room : Sound ((before ++ (name, vacated names n) :: after) ++ ((joining names n).1 ++ []))
            (joining names n).2 := by
          refine (sound.append (joining_gives names n)).congr ?_
          simp only [Table.keys, List.map_append, List.map_cons, List.append_nil]
        obtain ⟨given, others⟩ := reaches_hoistEntries (fun entry member => ih (by
          have less : entry.2.blockLevels < (Schema.node n).blockLevels := blockLevels_of_mem_joining member
          change (Schema.node n).blockLevels ≤ _ at enough
          omega)) _ [] pending _ true room
        have own := turn_node sound none pending moved
        have gives := joining_gives names n
        have count := length_hoistEntries (Schema.hoistWithin levels) (joining names n).2 (joining names n).1
        have heads := keys_hoistEntries (Schema.hoistWithin levels) (joining names n).2 (joining names n).1
        have some : (joining names n).1 ≠ [] := by
          rw [← List.length_pos_iff, length_joining, List.length_pos_iff]
          exact none
        simp only [hoistWithin_node levels names none]
        generalize hoistEntries (Schema.hoistWithin levels) (joining names n).2 (joining names n).1 = inner at *
        simp only [List.append_nil, List.nil_append, List.append_assoc, List.cons_append] at others
        constructor
        · rw [Table.keys_append, heads]
          exact gives.append given
        · have first : inner.1 ≠ [] := by
            rw [← List.length_pos_iff, count, List.length_pos_iff]
            exact some
          have flag : (moved || !(inner.1 ++ inner.2.1).isEmpty) = (true || !inner.2.1.isEmpty) := by
            cases whole : inner.1 with
            | nil => exact absurd whole first
            | cons => simp
          rw [flag, Nat.add_comm, List.length_append, count]
          exact .turn own others

/-- The loop ends after one turn for every definition of the table that it leaves, and leaves what the recursion makes. -/
theorem reaches_hoistDefinitions {definitions : Table Schema} (distinct : Table.Distinct definitions) :
    ∃ last, Reaches (hoistDefinitions definitions).1.length (start definitions) last ∧ last.turn = none ∧
      (last.table, last.moved) = hoistDefinitions definitions := by
  have sound : Sound ([] ++ (definitions ++ [])) (.reserving (Table.keys definitions)) := by
    rw [List.nil_append, List.append_nil]
    exact ⟨distinct, fun name member => member⟩
  have each : ∀ entry ∈ definitions, Follows Schema.hoist entry :=
    fun entry _ => follows_hoistWithin (Nat.le_refl entry.2.blockLevels)
  obtain ⟨-, run⟩ := reaches_hoistEntries each [] [] [] _ false sound
  have count := length_hoistEntries Schema.hoist (.reserving (Table.keys definitions)) definitions
  simp only [List.nil_append, List.append_nil, Bool.false_or] at run
  rw [← count, ← List.length_append] at run
  exact ⟨_, run, turn_of_nil rfl, rfl⟩

end Worklist

end Schemata
