import Schemata.Proofs.Json.Members
import Schemata.Proofs.Json.Pointer
import Schemata.Proofs.Schema.Descent
import Schemata.Proofs.Schema.Fields

namespace Schemata

/-- What a keyword holds: one schema, schemas by position, or schemas by name. -/
inductive Held (S : Type) where
  | single (schema : S)
  | list (schemas : List S)
  | table (entries : Table S)

namespace Held

variable {S T : Type}

/-- The schemas in order. -/
def schemas : Held S → List S
  | .single schema => [schema]
  | .list schemas => schemas
  | .table entries => entries.map (·.2)

/-- The schema that a path enters, and the rest of the path. -/
def enter? : Held S → Pointer → Option (S × Pointer)
  | .single schema, path => some (schema, path)
  | .list schemas, token :: path => ((Pointer.index? token).bind (schemas[·]?)).map (·, path)
  | .table entries, token :: path => (entries.lookup token).map (·, path)
  | _, [] => none

/-- Every schema replaced by its image. -/
def map (f : S → T) : Held S → Held T
  | .single schema => .single (f schema)
  | .list schemas => .list (schemas.map f)
  | .table entries => .table (Table.mapValues f entries)

/-- What is written for the schemas. -/
def toJson : Held Schema → Json
  | .single schema => schema.toJson
  | .list schemas => .array (schemas.map Schema.toJson)
  | .table entries => .object (Table.mapValues Schema.toJson entries)

/-- What is held under a keyword for schemas by position. -/
def ofList? : Option (Slot (List S)) → Option (Held S)
  | some (.valid schemas) => some (.list schemas)
  | _ => none

/-- What is held under a keyword for schemas by name. -/
def ofTable? : Option (Slot (Table S)) → Option (Held S)
  | some (.valid entries) => some (.table entries)
  | _ => none

/-- What is held under `items`. -/
def ofItems? : Option (Items S) → Option (Held S)
  | some (.positional schemas) => some (.list schemas)
  | some (.single schema) => some (.single schema)
  | none => none

end Held

namespace NodeOf

variable {S T : Type}

/-- What is held under a key. -/
def held? (n : NodeOf S) : String → Option (Held S)
  | "properties" => Held.ofTable? n.properties
  | "items" => Held.ofItems? n.items
  | "prefixItems" => Held.ofList? n.prefixItems
  | "additionalItems" => n.additionalItems.map .single
  | "additionalProperties" => n.additionalProperties.map .single
  | "allOf" => Held.ofList? n.allOf
  | "anyOf" => Held.ofList? n.anyOf
  | "oneOf" => Held.ofList? n.oneOf
  | "not" => n.not.map .single
  | "if" => n.condition.map .single
  | "then" => n.consequent.map .single
  | "else" => n.alternative.map .single
  | _ => none

/-- The subschema that a path enters, and the rest of the path. -/
def enter? (n : NodeOf S) : Pointer → Option (S × Pointer)
  | key :: path => (n.held? key).bind (·.enter? path)
  | [] => none

end NodeOf

/-- At the end of the path in the first schema stands the second. -/
inductive Schema.At : Pointer → Schema → Schema → Prop
  | here (schema : Schema) : At [] schema schema
  | inside {n : Node} {path rest : Pointer} {child schema : Schema} (enter : n.enter? path = some (child, rest))
      (further : At rest child schema) : At path (.node n) schema

/-- The keywords that the narrower reach leaves out. -/
def farKeywords : List String := ["not", "additionalItems"]

namespace Held

variable {S T : Type} {held : Held S}

theorem ofList_map (f : S → T) (slot : Option (Slot (List S))) :
    ofList? (slot.map (Slot.map (List.map f))) = (ofList? slot).map (Held.map f) := by
  rcases slot with - | (schemas | value) <;> rfl

theorem ofTable_map (f : S → T) (slot : Option (Slot (Table S))) :
    ofTable? (slot.map (Slot.map (Table.mapValues f))) = (ofTable? slot).map (Held.map f) := by
  rcases slot with - | (entries | value) <;> rfl

theorem ofItems_map (f : S → T) (items : Option (Items S)) :
    ofItems? (items.map (Items.map f)) = (ofItems? items).map (Held.map f) := by
  rcases items with - | (schemas | schema) <;> rfl

theorem single_map (f : S → T) (schema : Option S) :
    (schema.map f).map Held.single = (schema.map Held.single).map (Held.map f) := by
  cases schema <;> rfl

theorem enter_map (f : S → T) (held : Held S) (path : Pointer) :
    (held.map f).enter? path = (held.enter? path).map fun entered => (f entered.1, entered.2) := by
  cases held with
  | single schema => rfl
  | list schemas =>
    cases path with
    | nil => rfl
    | cons token path =>
      cases index : Pointer.index? token <;> simp [map, enter?, index, Function.comp_def]
  | table entries =>
    cases path with
    | nil => rfl
    | cons token path => simp [map, enter?, Table.lookup_mapValues, Function.comp_def]

theorem mem_schemas_of_enter {path rest : Pointer} {s : S} (enter : held.enter? path = some (s, rest)) :
    s ∈ held.schemas := by
  cases held with
  | single own =>
    cases enter
    exact List.mem_singleton_self s
  | list schemas =>
    cases path with
    | nil => cases enter
    | cons token path =>
      obtain ⟨own, found, same⟩ := Option.map_eq_some_iff.mp enter
      cases same
      obtain ⟨index, -, place⟩ := Option.bind_eq_some_iff.mp found
      exact List.mem_of_getElem? place
  | table entries =>
    cases path with
    | nil => cases enter
    | cons token path =>
      obtain ⟨own, found, same⟩ := Option.map_eq_some_iff.mp enter
      cases same
      exact List.mem_map_of_mem (Table.mem_of_lookup found)

theorem enter_append {schemas : List S} {path : Pointer} {entered : S × Pointer} (more : List S)
    (enter : (Held.list schemas).enter? path = some entered) :
    (Held.list (schemas ++ more)).enter? path = some entered := by
  cases path with
  | nil => cases enter
  | cons token path =>
    obtain ⟨schema, found, rfl⟩ := Option.map_eq_some_iff.mp enter
    obtain ⟨index, read, place⟩ := Option.bind_eq_some_iff.mp found
    have longer : (schemas ++ more)[index]? = some schema := by
      rw [List.getElem?_append_left (List.getElem?_eq_some_iff.mp place).1, place]
    rw [enter?, read, Option.bind_some, longer, Option.map_some]

/-- Writing keeps what a path enters. -/
theorem resolve_toJson {held : Held Schema} {path rest : Pointer} {schema : Schema}
    (enter : held.enter? path = some (schema, rest)) : held.toJson.resolve? path = schema.toJson.resolve? rest := by
  cases held with
  | single own =>
    cases enter
    rfl
  | list schemas =>
    cases path with
    | nil => cases enter
    | cons token path =>
      obtain ⟨own, found, same⟩ := Option.map_eq_some_iff.mp enter
      cases same
      obtain ⟨index, read, place⟩ := Option.bind_eq_some_iff.mp found
      simp [toJson, Json.resolve?, Json.member?, read, place]
  | table entries =>
    cases path with
    | nil => cases enter
    | cons token path =>
      obtain ⟨own, found, same⟩ := Option.map_eq_some_iff.mp enter
      cases same
      simp [toJson, Json.resolve?, Json.member?, Table.lookup_mapValues, found]

end Held

namespace NodeOf

variable {S T : Type} {key : String}

theorem held_mapBoth (f g : S → T) (n : NodeOf S) (key : String) :
    (n.mapBoth f g).held? key = (n.held? key).map (Held.map (if key ∈ farKeywords then g else f)) := by
  unfold held?
  split <;> first
    | exact Held.ofTable_map f _
    | exact Held.ofItems_map f _
    | exact Held.ofList_map f _
    | exact Held.single_map f _
    | exact Held.single_map g _
    | rfl

theorem written_ofList {slot : Option (Slot (List Schema))} {held : Held Schema} (holds : Held.ofList? slot = some held) :
    slot.map (Slot.toJson fun schemas => .array (Schema.listToItems schemas)) = some held.toJson := by
  rcases slot with - | (schemas | value) <;> cases holds
  simp [Slot.toJson, Held.toJson, Schema.listToItems_eq]

theorem written_single {schema : Option Schema} {held : Held Schema} (holds : schema.map Held.single = some held) :
    schema.map Schema.toJson = some held.toJson := by
  cases schema <;> cases holds
  rfl

/-- What is held under a keyword is what is written for it. -/
theorem written_of_held {n : Node} {held : Held Schema} (holds : n.held? key = some held) :
    key ∈ keywords ∧ n.written key = some held.toJson := by
  unfold held? at holds
  split at holds
  case h_1 =>
    refine ⟨by decide, ?_⟩
    rw [written]
    rcases own : n.properties with - | (table | value) <;> rw [own] at holds <;> cases holds
    simp [Slot.toJson, Held.toJson, Schema.tableToFields_eq]
  case h_2 =>
    refine ⟨by decide, ?_⟩
    rw [written]
    rcases own : n.items with - | (schemas | schema) <;> rw [own] at holds <;> cases holds
    · simp [Held.toJson, Schema.listToItems_eq]
    · rfl
  case h_13 => cases holds
  all_goals first
    | exact ⟨by decide, written_ofList holds⟩
    | exact ⟨by decide, written_single holds⟩

theorem schemas_ofList {slot : Option (Slot (List S))} {s : S} (member : s ∈ listed slot) :
    ∃ held, Held.ofList? slot = some held ∧ s ∈ held.schemas := by
  rcases slot with - | (schemas | value)
  · cases member
  · exact ⟨_, rfl, member⟩
  · cases member

theorem schemas_ofTable {slot : Option (Slot (Table S))} {s : S} (member : s ∈ declared slot) :
    ∃ held, Held.ofTable? slot = some held ∧ s ∈ held.schemas := by
  rcases slot with - | (entries | value)
  · cases member
  · exact ⟨_, rfl, member⟩
  · cases member

theorem schemas_ofItems {items : Option (Items S)} {s : S} (member : s ∈ elements items) :
    ∃ held, Held.ofItems? items = some held ∧ s ∈ held.schemas := by
  rcases items with - | (schemas | schema)
  · cases member
  · exact ⟨_, rfl, member⟩
  · exact ⟨_, rfl, member⟩

theorem schemas_single {schema : Option S} {s : S} (member : s ∈ schema.toList) :
    ∃ held, schema.map Held.single = some held ∧ s ∈ held.schemas := by
  cases schema with
  | none => cases member
  | some schema => exact ⟨_, rfl, member⟩

/-- Every subschema is held under a key. -/
theorem exists_held_of_mem {n : NodeOf S} {s : S} (member : s ∈ n.subschemas .auxiliary) :
    ∃ key held, n.held? key = some held ∧ s ∈ held.schemas := by
  rw [subschemas_auxiliary, subschemas_keywords] at member
  simp only [List.mem_append, or_assoc] at member
  rcases member with h | h | h | h | h | h | h | h | h | h | h | h
  · exact ⟨"properties", schemas_ofTable h⟩
  · exact ⟨"items", schemas_ofItems h⟩
  · exact ⟨"additionalProperties", schemas_single h⟩
  · exact ⟨"allOf", schemas_ofList h⟩
  · exact ⟨"anyOf", schemas_ofList h⟩
  · exact ⟨"oneOf", schemas_ofList h⟩
  · exact ⟨"prefixItems", schemas_ofList h⟩
  · exact ⟨"if", schemas_single h⟩
  · exact ⟨"then", schemas_single h⟩
  · exact ⟨"else", schemas_single h⟩
  · exact ⟨"not", schemas_single h⟩
  · exact ⟨"additionalItems", schemas_single h⟩

theorem mem_subschemas_of_held {n : NodeOf S} {held : Held S} {s : S} (holds : n.held? key = some held)
    (member : s ∈ held.schemas) : s ∈ n.subschemas .auxiliary := by
  have single {schema : Option S} (given : schema.map Held.single = some held) : s ∈ schema.toList := by
    cases schema <;> cases given
    exact member
  have list {slot : Option (Slot (List S))} (given : Held.ofList? slot = some held) : s ∈ listed slot := by
    rcases slot with - | (schemas | value) <;> cases given
    exact member
  have table {slot : Option (Slot (Table S))} (given : Held.ofTable? slot = some held) : s ∈ declared slot := by
    rcases slot with - | (entries | value) <;> cases given
    exact member
  have items {items : Option (Items S)} (given : Held.ofItems? items = some held) : s ∈ elements items := by
    rcases items with - | (schemas | schema) <;> cases given <;> exact member
  rw [subschemas_auxiliary, subschemas_keywords]
  simp only [List.mem_append, or_assoc]
  unfold held? at holds
  split at holds
  case h_1 => simp only [table holds, true_or]
  case h_2 => simp only [items holds, true_or, or_true]
  case h_13 => cases holds
  all_goals first
    | simp only [list holds, true_or, or_true]
    | simp only [single holds, true_or, or_true]

theorem mem_subschemas_of_enter {n : NodeOf S} {path rest : Pointer} {s : S} (enter : n.enter? path = some (s, rest)) :
    s ∈ n.subschemas .auxiliary := by
  cases path with
  | nil => cases enter
  | cons key path =>
    obtain ⟨held, holds, entered⟩ := Option.bind_eq_some_iff.mp enter
    exact mem_subschemas_of_held holds (Held.mem_schemas_of_enter entered)

end NodeOf

namespace Held

/-- What is held was read from the value. -/
inductive ReadFrom : Json → Held Schema → Prop
  | single (value : Json) : ReadFrom value (.single (.ofJson value))
  | list (items : List Json) : ReadFrom (.array items) (.list (items.map .ofJson))
  | table (fields : Table Json) : ReadFrom (.object fields) (.table (Table.mapValues .ofJson fields))

variable {value : Json} {held : Held Schema} {path rest : Pointer} {schema : Schema}

theorem ReadFrom.enter (read : ReadFrom value held) (enter : held.enter? path = some (schema, rest)) :
    ∃ inner, schema = .ofJson inner ∧ value.resolve? path = inner.resolve? rest := by
  cases read with
  | single =>
    cases enter
    exact ⟨value, rfl, rfl⟩
  | list items =>
    cases path with
    | nil => cases enter
    | cons token path =>
      obtain ⟨own, found, same⟩ := Option.map_eq_some_iff.mp enter
      cases same
      obtain ⟨index, read, place⟩ := Option.bind_eq_some_iff.mp found
      rw [List.getElem?_map] at place
      obtain ⟨inner, item, rfl⟩ := Option.map_eq_some_iff.mp place
      exact ⟨inner, rfl, by simp [Json.resolve?, Json.member?, read, item]⟩
  | table fields =>
    cases path with
    | nil => cases enter
    | cons token path =>
      obtain ⟨own, found, same⟩ := Option.map_eq_some_iff.mp enter
      cases same
      rw [Table.lookup_mapValues] at found
      obtain ⟨inner, entry, rfl⟩ := Option.map_eq_some_iff.mp found
      exact ⟨inner, rfl, by simp [Json.resolve?, Json.member?, entry]⟩

theorem ReadFrom.size_le (read : ReadFrom value held) (member : schema ∈ held.schemas) :
    ∃ inner, schema = .ofJson inner ∧ inner.size ≤ value.size := by
  cases read with
  | single => exact ⟨value, List.mem_singleton.mp member, Nat.le_refl _⟩
  | list items =>
    obtain ⟨inner, item, rfl⟩ := List.mem_map.mp member
    exact ⟨inner, rfl, (Json.size_lt_of_item item).le⟩
  | table fields =>
    obtain ⟨image, mapped, rfl⟩ := List.mem_map.mp member
    obtain ⟨entry, own, rfl⟩ := List.mem_map.mp mapped
    exact ⟨entry.2, rfl, (Json.size_lt_of_entry own).le⟩

/-- Some path enters every schema that was read; entries can be told apart by their names. -/
theorem ReadFrom.exists_enter (read : ReadFrom value held) (distinct : value.KeysDistinct)
    (member : schema ∈ held.schemas) : ∃ path inner, (∀ rest, held.enter? (path ++ rest) = some (schema, rest)) ∧
      schema = .ofJson inner ∧ inner.KeysDistinct ∧ inner.size ≤ value.size := by
  cases read with
  | single =>
    obtain rfl := List.mem_singleton.mp member
    exact ⟨[], value, fun _ => rfl, rfl, distinct, Nat.le_refl _⟩
  | list items =>
    obtain ⟨index, place⟩ := List.mem_iff_getElem?.mp (show schema ∈ items.map .ofJson from member)
    obtain ⟨inner, item, rfl⟩ := Option.map_eq_some_iff.mp (List.getElem?_map .. ▸ place)
    have inside := List.mem_of_getElem? item
    rw [Json.KeysDistinct, Json.itemsKeysDistinct_iff] at distinct
    refine ⟨[toString index], inner, fun rest => ?_, rfl, distinct inner inside, (Json.size_lt_of_item inside).le⟩
    rw [List.singleton_append, enter?, Pointer.index?_toString, Option.bind_some, place, Option.map_some]
  | table fields =>
    obtain ⟨image, mapped, rfl⟩ := List.mem_map.mp member
    obtain ⟨⟨name, inner⟩, inside, rfl⟩ := List.mem_map.mp mapped
    have found := Table.lookup_of_mem (Json.keysDistinct_object.mp distinct).1 inside
    refine ⟨[name], inner, fun rest => ?_, rfl, distinct.of_mem inside, (Json.size_lt_of_entry inside).le⟩
    simp [enter?, Table.lookup_mapValues, found]

theorem readFrom_list {found : Option Json} (holds : ofList? (found.map Schema.slotOfJson) = some held) :
    ∃ value, found = some value ∧ ReadFrom value held := by
  rcases found with - | value
  · cases holds
  · cases value <;> cases holds
    exact ⟨_, rfl, Schema.listOfItems_eq _ ▸ .list _⟩

theorem readFrom_single {found : Option Json} (holds : (found.map Schema.ofJson).map single = some held) :
    ∃ value, found = some value ∧ ReadFrom value held := by
  cases found <;> cases holds
  exact ⟨_, rfl, .single _⟩

end Held

namespace Schema

variable {fields : Table Json} {key : String} {held : Held Schema} {value : Json} {path rest : Pointer}
  {schema child : Schema}

/-- What a node that was read holds was read from the entry of that name. -/
theorem held_nodeOfFields (holds : (nodeOfFields fields).held? key = some held) :
    ∃ value, fields.lookup key = some value ∧ Held.ReadFrom value held := by
  rw [nodeOfFields_eq] at holds
  unfold NodeOf.held? at holds
  split at holds
  case h_1 =>
    cases found : fields.lookup "properties" with
    | none => rw [found] at holds; cases holds
    | some value =>
      rw [found] at holds
      cases value <;> cases holds
      exact ⟨_, rfl, tableOfFields_eq _ ▸ .table _⟩
  case h_2 =>
    cases found : fields.lookup "items" with
    | none => rw [found] at holds; cases holds
    | some value =>
      rw [found] at holds
      cases value with
      | array items =>
        cases holds
        exact ⟨_, rfl, listOfItems_eq items ▸ .list items⟩
      | _ =>
        cases holds
        exact ⟨_, rfl, .single _⟩
  case h_13 => cases holds
  all_goals first
    | exact Held.readFrom_list holds
    | exact Held.readFrom_single holds

/-- Reading a value keeps every subschema at its place. -/
theorem At.of_ofJson (there : At path (ofJson value) schema) :
    ∃ inner, value.resolve? path = some inner ∧ schema = ofJson inner := by
  generalize start : ofJson value = whole at there
  induction there generalizing value with
  | here => exact ⟨value, rfl, start.symm⟩
  | @inside n path rest child schema enter further ih =>
    cases value with
    | object fields =>
      rw [ofJson] at start
      cases start
      cases path with
      | nil => cases enter
      | cons key path =>
        obtain ⟨held, holds, entered⟩ := Option.bind_eq_some_iff.mp enter
        obtain ⟨outer, found, read⟩ := held_nodeOfFields holds
        obtain ⟨inner, rfl, same⟩ := read.enter entered
        obtain ⟨last, resolved, read⟩ := ih rfl
        refine ⟨last, ?_, read⟩
        simp [Json.resolve?, Json.member?, found, same, resolved]
    | _ => cases start

/-- Every node of a schema that was read has a place. -/
theorem exists_at_of_mem_nodes (distinct : value.KeysDistinct) {n : Node} (member : n ∈ (ofJson value).nodes .auxiliary) :
    ∃ path, At path (ofJson value) (.node n) := by
  induction bound : value.size using Nat.strong_induction_on generalizing value with
  | _ size ih =>
    subst bound
    cases value with
    | object fields =>
      rw [ofJson, nodes_node, List.mem_cons] at member
      rcases member with rfl | below
      · exact ⟨[], .here _⟩
      · obtain ⟨s, inside, listed⟩ := List.mem_flatMap.mp below
        obtain ⟨key, held, holds, inside⟩ := NodeOf.exists_held_of_mem inside
        obtain ⟨outer, found, read⟩ := held_nodeOfFields holds
        have entry := Table.mem_of_lookup found
        obtain ⟨path, inner, enters, rfl, distinct, small⟩ := read.exists_enter (distinct.of_mem entry) inside
        obtain ⟨rest, there⟩ := ih inner.size (small.trans_lt (Json.size_lt_of_entry entry)) distinct listed rfl
        refine ⟨key :: (path ++ rest), .inside ?_ there⟩
        rw [NodeOf.enter?, holds, Option.bind_some, enters]
    | _ => cases member

theorem resolve_nodeFields {n : Node} (enter : n.enter? path = some (child, rest)) :
    (Json.object (nodeFields n)).resolve? path = child.toJson.resolve? rest := by
  cases path with
  | nil => cases enter
  | cons key path =>
    obtain ⟨held, holds, entered⟩ := Option.bind_eq_some_iff.mp enter
    obtain ⟨keyword, written⟩ := NodeOf.written_of_held holds
    rw [← Held.resolve_toJson entered]
    simp [Json.resolve?, Json.member?, lookup_nodeFields_of_written keyword written]

/-- Writing a schema keeps every subschema at its place. -/
theorem At.resolve_toJson (there : At path schema child) : schema.toJson.resolve? path = some child.toJson := by
  induction there with
  | here schema => rfl
  | inside enter further ih => rw [toJson, resolve_nodeFields enter, ih]

end Schema

end Schemata
