import Schemata.Proofs.Decoding.Library
import Schemata.Proofs.Document.Normalize

namespace Schemata

namespace Schema

theorem not_mem_keys_entry {key name : String} (differ : name ≠ key) (value : Option Json) :
    name ∉ Table.keys (Json.entry key value) := by
  cases value <;> simp [Json.entry, differ]

theorem not_mem_keys_schemaEntry {key name : String} (differ : name ≠ key) (schema : Option Schema) :
    name ∉ Table.keys (schemaEntry key schema) := by
  cases schema <;> simp [schemaEntry, differ]

theorem not_mem_keys_listEntry {key name : String} (differ : name ≠ key) (slot : Option (Slot (List Schema))) :
    name ∉ Table.keys (listEntry key slot) := by
  rcases slot with _ | (schemas | value) <;> simp [listEntry, differ]

theorem not_mem_keys_tableEntry {key name : String} (differ : name ≠ key) (slot : Option (Slot (List (String × Schema)))) :
    name ∉ Table.keys (tableEntry key slot) := by
  rcases slot with _ | (table | value) <;> simp [tableEntry, differ]

theorem not_mem_keys_itemsEntry {name : String} (differ : name ≠ "items") (items : Option (Items Schema)) :
    name ∉ Table.keys (itemsEntry items) := by
  rcases items with _ | (schemas | schema) <;> simp [itemsEntry, differ]

/-- The entries of a node are those of its keywords, and then what it carries along. -/
theorem nodeFields_eq (n : Node) : nodeFields n = nodeFields { n with extra := [] } ++ n.extra := by
  cases n
  simp only [nodeFields, List.append_assoc, List.nil_append]

/-- No keyword is a block. -/
theorem definitions_not_mem_keywords (n : Node) : "definitions" ∉ Table.keys (nodeFields { n with extra := [] }) := by
  simp only [nodeFields, Table.keys_append, List.mem_append, not_or]
  exact ⟨not_mem_keys_entry (by decide) _, not_mem_keys_entry (by decide) _, not_mem_keys_entry (by decide) _,
    not_mem_keys_tableEntry (by decide) _, not_mem_keys_entry (by decide) _,
    not_mem_keys_itemsEntry (by decide) _, not_mem_keys_listEntry (by decide) _,
    not_mem_keys_schemaEntry (by decide) _, not_mem_keys_schemaEntry (by decide) _,
    not_mem_keys_listEntry (by decide) _, not_mem_keys_listEntry (by decide) _, not_mem_keys_listEntry (by decide) _,
    not_mem_keys_schemaEntry (by decide) _, not_mem_keys_schemaEntry (by decide) _,
    not_mem_keys_schemaEntry (by decide) _, not_mem_keys_schemaEntry (by decide) _,
    not_mem_keys_entry (by decide) _, not_mem_keys_entry (by decide) _, List.not_mem_nil⟩

/-- A proper object loses its own definitions when the table of all definitions takes their place. -/
theorem Proper.fresh {schema : Schema} {fields : Table Json} (proper : schema.Proper)
    (object : schema.toJson = .object fields) : "definitions" ∉ Table.keys (Table.swapErase fields "definitions") := by
  cases schema with
  | node n =>
    obtain rfl : nodeFields n = fields := Json.object.inj object
    have gone : "definitions" ∉ Table.keys (Table.erase n.extra "definitions") := by
      intro present
      have distinct := (Json.keysDistinct_object.mp (proper.distinct n rfl)).1
      rw [← Table.lookup_isSome_iff, Table.lookup_erase_self distinct] at present
      cases present
    intro present
    have moved : "definitions" ∈ Table.keys (Table.erase (nodeFields n) "definitions") :=
      ((Table.swapErase_perm_erase _ _).map _).mem_iff.mp present
    rw [nodeFields_eq, Table.erase_append_of_fresh (definitions_not_mem_keywords n), Table.keys_append,
      List.mem_append] at moved
    rcases moved with keyword | carried
    · exact definitions_not_mem_keywords n keyword
    · exact gone carried
  | bool value => cases object
  | malformed value =>
    have unreadable := proper.unreadable value rfl
    rw [show value = .object fields from object] at unreadable
    cases unreadable

/-- A proper object without blocks has no definitions of its own. -/
theorem Blockless.own_eq_nil {schema : Schema} {fields : Table Json} (proper : schema.Proper)
    (blockless : schema.Blockless) (object : schema.toJson = .object fields) :
    ((fields.lookup "definitions").bind Json.object?).getD [] = [] := by
  cases schema with
  | node n =>
    obtain rfl : nodeFields n = fields := Json.object.inj object
    have none := blockless n rfl "definitions" (by decide)
    rw [NodeOf.block?] at none
    rw [nodeFields_eq, List.lookup_append, Table.lookup_eq_none (definitions_not_mem_keywords n), Option.none_or, none]
    rfl
  | bool value => cases object
  | malformed value =>
    have unreadable := proper.unreadable value rfl
    rw [show value = .object fields from object] at unreadable
    cases unreadable

theorem tableToFields_eq (table : Table Schema) : tableToFields table = Table.mapValues toJson table := by
  induction table with
  | nil => rfl
  | cons entry rest ih =>
    obtain ⟨name, schema⟩ := entry
    rw [tableToFields, ih]
    rfl

end Schema

namespace SchemaSet

/-- The set with one more definition. -/
def insert (set : SchemaSet) (name : String) (schema : Schema) : SchemaSet :=
  { set with definitions := Table.insert set.definitions name schema }

variable {set : SchemaSet} {name owner : String} {schema : Schema} {document : Json} {fields : Table Json}

/-- The table of all definitions as it is put into each. -/
def shared (set : SchemaSet) : Table Json := Table.insertAll [] (Schema.tableToFields set.definitions)

theorem shared_subset (set : SchemaSet) : set.shared ⊆ Schema.tableToFields set.definitions := by
  intro entry member
  rcases Table.mem_insertAll member with impossible | inside
  · cases impossible
  · exact inside

theorem not_mem_keys_shared (fresh : name ∉ Table.keys set.definitions) : name ∉ Table.keys set.shared := by
  intro present
  obtain ⟨entry, member, same⟩ := List.mem_map.mp present
  refine fresh ?_
  rw [← Table.keys_mapValues Schema.toJson, ← Schema.tableToFields_eq, ← same]
  exact Table.name_mem_keys (shared_subset set member)

theorem shared_insert (fresh : name ∉ Table.keys set.definitions) (schema : Schema) :
    (set.insert name schema).shared = set.shared ++ [(name, schema.toJson)] := by
  rw [shared, insert, Table.insert_of_fresh fresh, Schema.tableToFields_eq, Table.mapValues, List.map_append,
    Table.insertAll, List.foldl_append]
  rw [← Table.insert_of_fresh (not_mem_keys_shared fresh), shared, Schema.tableToFields_eq]
  rfl

theorem lookup_insert_of_lookup (fresh : name ∉ Table.keys set.definitions) {own : Schema}
    (found : set.definitions.lookup owner = some own) (schema : Schema) :
    (set.insert name schema).definitions.lookup owner = some own := by
  have differ : owner ≠ name := by
    rintro rfl
    rw [Table.lookup_eq_none fresh] at found
    cases found
  rw [insert, Table.lookup_insert, if_neg differ]
  exact found

theorem standalone?_of_object (proper : schema.Proper) (blockless : schema.Blockless)
    (found : set.definitions.lookup owner = some schema) (object : schema.toJson = .object fields) :
    set.standalone? owner = some (.carrying (Table.swapErase fields "definitions") set.shared) := by
  have own := blockless.own_eq_nil proper object
  rw [standalone?, found, Option.map_some]
  simp only [object, own]
  rfl

theorem standalone?_of_other (found : set.definitions.lookup owner = some schema) (other : schema.toJson.object? = none) :
    set.standalone? owner = some schema.toJson := by
  rw [standalone?, found, Option.map_some]
  cases shape : schema.toJson with
  | object fields =>
    rw [shape] at other
    cases other
  | _ => rfl

/-- With one more definition, an object carries that as its last definition; every other schema stays as it is. -/
theorem standalone?_insert (ordinary : ∀ entry ∈ set.definitions, entry.2.Proper ∧ entry.2.Blockless)
    (fresh : name ∉ Table.keys set.definitions) (alone : set.standalone? owner = some document) (schema : Schema) :
    (∃ fields, "definitions" ∉ Table.keys fields ∧ document = .carrying fields set.shared ∧
      (set.insert name schema).standalone? owner = some (.carrying fields (set.shared ++ [(name, schema.toJson)]))) ∨
    document.object? = none ∧ (set.insert name schema).standalone? owner = some document := by
  obtain ⟨own, found, -⟩ := Option.map_eq_some_iff.mp alone
  have later := lookup_insert_of_lookup fresh found schema
  cases object : own.toJson.object? with
  | some fields =>
    rw [Json.object?_eq_some_iff] at object
    obtain ⟨proper, blockless⟩ := ordinary _ (Table.mem_of_lookup found)
    have before := standalone?_of_object proper blockless found object
    have after := standalone?_of_object proper blockless later object
    rw [shared_insert fresh] at after
    exact Or.inl ⟨_, proper.fresh object, Option.some.inj (alone.symm.trans before), after⟩
  | none =>
    obtain rfl := Option.some.inj (alone.symm.trans (standalone?_of_other found object))
    exact Or.inr ⟨object, standalone?_of_other later object⟩

end SchemaSet

end Schemata
