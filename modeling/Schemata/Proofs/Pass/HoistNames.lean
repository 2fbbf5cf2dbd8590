import Schemata.Proofs.Pass.Hoist

namespace Schemata

namespace Schema

/-- The entries of the object-valued blocks at the root of a schema, in order. -/
def carried : Schema → Table Json
  | .node n => ["$defs", "definitions"].flatMap fun keyword =>
    match n.extra.lookup keyword with
    | some (.object fields) => fields
    | _ => []
  | _ => []

theorem carried_eq (schema : Schema) : schema.carried = schema.blockEntries.map (·.2) := by
  cases schema with
  | node n =>
    have block (keyword : String) : (match n.extra.lookup keyword with
        | some (.object fields) => fields
        | _ => []) = (n.block? keyword).getD [] := by
      unfold NodeOf.block?
      cases n.extra.lookup keyword with
      | none => rfl
      | some value => cases value <;> rfl
    simp only [carried, block, blockEntries, NodeOf.blockEntries, blockKeywords, List.map_flatMap, List.map_map,
      Function.comp_def, List.map_id']
  | bool value => rfl
  | malformed value => rfl

theorem blockLevels_lt_of_carried {schema : Schema} {entry : String × Json} (member : entry ∈ schema.carried) :
    (ofJson entry.2).blockLevels < schema.blockLevels := by
  rw [carried_eq] at member
  obtain ⟨block, inside, rfl⟩ := List.mem_map.mp member
  exact blockLevels_lt_of_entry inside

/-- All entries of blocks: those that a schema carries itself, then those below each of them in turn. -/
def nested (schema : Schema) : Table Json :=
  schema.carried ++ schema.carried.attach.flatMap fun entry => (ofJson entry.1.2).nested
termination_by schema.blockLevels
decreasing_by exact blockLevels_lt_of_carried entry.2

theorem nested_eq (schema : Schema) :
    schema.nested = schema.carried ++ schema.carried.flatMap fun entry => (ofJson entry.2).nested := by
  rw [nested]
  congr 1
  rw [List.flatMap_subtype (g := fun entry => (ofJson entry.2).nested) fun _ _ => rfl, List.unattach_attach]

theorem nested_of_blockLevels_eq_zero {schema : Schema} (flat : schema.blockLevels = 0) : schema.nested = [] := by
  cases schema with
  | node n => simp [blockLevels] at flat
  | bool value => exact nested_eq _
  | malformed value => exact nested_eq _

end Schema

theorem Owner.keys_inner {owner : Owner} (full : owner.Full) : Table.keys owner.inner = owner.given := by
  rw [Table.keys, inner, entries, List.map_map]
  exact List.map_snd_zip (Nat.le_of_eq full)

/-- What is below the schemas of the blocks is below the entries that they are read from. -/
theorem Owner.nested_inner {owner : Owner} (full : owner.Full) :
    owner.inner.flatMap (fun entry => entry.2.nested) =
      owner.schema.carried.flatMap fun entry => (Schema.ofJson entry.2).nested := by
  have whole : owner.entries.map (·.1) = owner.schema.blockEntries := List.map_fst_zip (Nat.le_of_eq full.symm)
  rw [Schema.carried_eq, ← whole, inner, List.flatMap_map, List.flatMap_map, List.flatMap_map]

section

variable {plan : NameAllocator → String × Schema → Plan} {names : NameAllocator}

theorem planEntries_allocates {table : Table Schema}
    (each : ∀ (names : NameAllocator), ∀ entry ∈ table, names.allocateAll (Table.keys entry.2.nested) =
      ((plan names entry).below.map (·.own.name), (plan names entry).names))
    (named : ∀ names entry, (plan names entry).trail.own.name = entry.1) (names : NameAllocator) :
    names.allocateAll (Table.keys (table.flatMap fun entry => entry.2.nested)) =
        ((planEntries plan names table).2.1.map (·.own.name), (planEntries plan names table).2.2) ∧
      (planEntries plan names table).1.map (·.own.name) = Table.keys table := by
  induction table generalizing names with
  | nil => exact ⟨rfl, rfl⟩
  | cons entry rest ih =>
    have first := each names entry List.mem_cons_self
    obtain ⟨further, heads⟩ := ih (fun names entry member => each names entry (List.mem_cons_of_mem _ member))
      (plan names entry).names
    rw [planEntries, List.flatMap_cons, Table.keys_append, NameAllocator.allocateAll_append, first, further,
      List.map_append, List.map_cons, heads, named]
    exact ⟨rfl, rfl⟩

/-- The entries below a schema get their names in the order in which they are listed. -/
theorem planWithin_allocates {levels : Nat} {entry : String × Schema} (enough : entry.2.blockLevels ≤ levels)
    (above : List Owner) (names : NameAllocator) :
    names.allocateAll (Table.keys entry.2.nested) =
      ((planWithin levels above names entry).below.map (·.own.name), (planWithin levels above names entry).names) := by
  induction levels generalizing above names entry with
  | zero =>
    rw [Schema.nested_of_blockLevels_eq_zero (Nat.le_zero.mp enough)]
    rfl
  | succ levels ih =>
    obtain ⟨name, schema⟩ := entry
    have bases : Table.keys schema.carried = schema.blockEntries.map (·.2.1) := by
      rw [Schema.carried_eq, Table.keys, List.map_map]
      rfl
    obtain ⟨own, isOwn⟩ : ∃ own, own = Owner.mk name schema (names.allocateAll (schema.blockEntries.map (·.2.1))).1 :=
      ⟨_, rfl⟩
    have full : own.Full := by
      rw [isOwn, Owner.Full, NameAllocator.length_allocateAll, List.length_map]
    have lower : ∀ inner ∈ own.inner, inner.2.blockLevels ≤ levels := by
      intro inner member
      obtain ⟨block, inside, same⟩ := Owner.mem_inner member
      rw [isOwn] at inside
      have less : (Schema.ofJson block.2.2).blockLevels < schema.blockLevels := Schema.blockLevels_lt_of_entry inside
      change schema.blockLevels ≤ _ at enough
      rw [same]
      omega
    obtain ⟨further, direct⟩ := planEntries_allocates
      (fun before inner member => ih (lower inner member) (own :: above) before)
      (fun before inner => (planWithin_own levels (own :: above) before inner).1)
      (names.allocateAll (schema.blockEntries.map (·.2.1))).2
    rw [Owner.nested_inner full] at further
    rw [Owner.keys_inner full] at direct
    subst isOwn
    have plan : planWithin (levels + 1) above names (name, schema) = ⟨⟨_, above⟩, _ ++ _, _⟩ := rfl
    rw [Schema.nested_eq, Table.keys_append, bases, NameAllocator.allocateAll_append, further, plan, List.map_append,
      direct]

end

section

variable {definitions : Table Schema}

/-- The definitions keep their names and their order, and the entries follow under names of their own. -/
theorem keys_hoistDefinitions (definitions : Table Schema) :
    Table.keys (hoistDefinitions definitions).1 = Table.keys definitions ++
      ((NameAllocator.reserving (Table.keys definitions)).allocateAll
        (Table.keys (definitions.flatMap fun entry => entry.2.nested))).1 := by
  obtain ⟨further, owners⟩ := planEntries_allocates
    (fun names entry (_ : entry ∈ definitions) => planWithin_allocates (Nat.le_refl entry.2.blockLevels) [] names)
    (fun names entry => (planWithin_own _ [] names entry).1) (NameAllocator.reserving (Table.keys definitions))
  have names : Table.keys (hoistDefinitions definitions).1 = (trails definitions).map (·.own.name) := by
    rw [hoistDefinitions_eq, Table.keys, List.map_map]
    rfl
  rw [names, trails, List.map_append, owners, further]

/-- No name of the table is given twice. -/
theorem distinct_hoistDefinitions (distinct : Table.Distinct definitions) :
    Table.Distinct (hoistDefinitions definitions).1 := by
  have gives := NameAllocator.allocateAll_gives (NameAllocator.reserving (Table.keys definitions))
    (Table.keys (definitions.flatMap fun entry => entry.2.nested))
  rw [Table.Distinct, keys_hoistDefinitions]
  refine List.nodup_append.mpr ⟨distinct, gives.distinct, ?_⟩
  rintro name early _ late rfl
  exact gives.free name late early

end

end Schemata
