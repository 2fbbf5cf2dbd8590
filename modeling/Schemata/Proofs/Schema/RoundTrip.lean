import Schemata.Proofs.Schema.Place

namespace Schemata

namespace Json

/-- Equal but for the order of entries, at any depth. -/
inductive Reordered : Json → Json → Prop
  | same (value : Json) : Reordered value value
  | array {items items' : List Json} (length : items.length = items'.length)
      (each : ∀ (index : Nat) (item item' : Json), items[index]? = some item → items'[index]? = some item' →
        Reordered item item') : Reordered (.array items) (.array items')
  | object {fields fields' : Table Json} (names : (Table.keys fields).Perm (Table.keys fields'))
      (each : ∀ (name : String) (value value' : Json), fields.lookup name = some value →
        fields'.lookup name = some value' → Reordered value value') : Reordered (.object fields) (.object fields')

theorem texts?_map (texts : List String) : texts? (texts.map .string) = some texts := by
  induction texts with
  | nil => rfl
  | cons text rest ih => rw [List.map_cons, texts?, ih, Option.map_some]

theorem ofTexts_of_texts? {items : List Json} {texts : List String} (read : texts? items = some texts) :
    ofTexts texts = .array items := by
  induction items generalizing texts with
  | nil =>
    cases read
    rfl
  | cons item rest ih =>
    cases item with
    | string text =>
      obtain ⟨others, inner, rfl⟩ := Option.map_eq_some_iff.mp read
      have tail := Json.array.inj (ih inner)
      rw [ofTexts, List.map_cons, tail]
    | _ => cases read

end Json

namespace Schema

/-- The value has the shape in which the keyword holds schemas. -/
def holdsSchemas (key : String) (value : Json) : Bool :=
  if key = "properties" then value.object?.isSome
  else if key = "items" then value.array?.isSome || value.object?.isSome || value matches .bool _
  else if key ∈ listKeywords then value.array?.isSome
  else if key ∈ singleKeywords then
    value.object?.isSome || value matches .bool _
  else false

/-- What is written for a value that was read. -/
def rewritten (value : Json) : Json := (ofJson value).toJson

/-- What is written for the value of a keyword that was read. -/
def rewrittenUnder (key : String) (value : Json) : Json :=
  if holdsSchemas key value then
    match value with
    | .array items => .array (items.map rewritten)
    | .object fields => if key = "properties" then .object (Table.mapValues rewritten fields) else rewritten value
    | _ => value
  else value

section

variable {fields : Table Json} {key : String}

theorem toJson_typeNames (value : Json) : (TypeNames.ofJson value).toJson TypeNames.toJson = value := by
  unfold TypeNames.ofJson
  split
  · rfl
  · split
    · rename_i names read
      exact Json.ofTexts_of_texts? read
    · rfl
  · rfl

theorem toJson_texts (value : Json) : (Slot.textsOfJson value).toJson Json.ofTexts = value := by
  unfold Slot.textsOfJson
  split
  · split
    · rename_i names read
      exact Json.ofTexts_of_texts? read
    · rfl
  · rfl

theorem rewrittenUnder_of_not_holds {value : Json} (other : holdsSchemas key value = false) :
    rewrittenUnder key value = value := by
  unfold rewrittenUnder
  rw [if_neg (Bool.not_eq_true _ ▸ other)]

theorem rewrittenUnder_single (single : key ∈ singleKeywords) (value : Json) :
    rewrittenUnder key value = rewritten value := by
  simp only [singleKeywords, List.mem_cons, List.not_mem_nil, or_false] at single
  rcases single with rfl | rfl | rfl | rfl | rfl | rfl <;> cases value <;> rfl

theorem listToItems_listOfItems (items : List Json) : listToItems (listOfItems items) = items.map rewritten := by
  rw [listToItems_eq, listOfItems_eq, List.map_map]
  rfl

theorem tableToFields_tableOfFields (fields : Table Json) :
    tableToFields (tableOfFields fields) = Table.mapValues rewritten fields := by
  rw [tableToFields_eq, tableOfFields_eq, Table.mapValues, Table.mapValues, List.map_map]
  rfl

theorem rewrittenUnder_list (list : key ∈ listKeywords) (value : Json) :
    rewrittenUnder key value = (slotOfJson value).toJson fun schemas => .array (listToItems schemas) := by
  simp only [listKeywords, List.mem_cons, List.not_mem_nil, or_false] at list
  rcases list with rfl | rfl | rfl | rfl <;> cases value <;>
    simp only [slotOfJson, Slot.toJson, listToItems_listOfItems] <;> rfl

/-- What is written for a keyword of a node that was read. -/
theorem written_nodeOfFields (keyword : key ∈ keywords) :
    (nodeOfFields fields).written key = (fields.lookup key).map (rewrittenUnder key) := by
  have through {α : Type} (read : Json → α) (write : α → Json)
      (each : ∀ value, write (read value) = rewrittenUnder key value) :
      ((fields.lookup key).map read).map write = (fields.lookup key).map (rewrittenUnder key) := by
    rw [Option.map_map]
    exact congrArg (Option.map · _) (funext each)
  have list (member : key ∈ listKeywords) := through slotOfJson _ fun value => (rewrittenUnder_list member value).symm
  have single (member : key ∈ singleKeywords) := through ofJson toJson fun value => (rewrittenUnder_single member value).symm
  rw [nodeOfFields_eq]
  simp only [keywords, List.mem_cons, List.not_mem_nil, or_false] at keyword
  rcases keyword with rfl | rfl | rfl | rfl | rfl | rfl | rfl | rfl | rfl | rfl | rfl | rfl | rfl | rfl | rfl |
    rfl | rfl | rfl
  · exact through _ _ toJson_typeNames
  · exact (Option.map_id_apply).symm
  · exact through _ _ fun value => by cases value <;> rfl
  · refine through _ _ fun value => ?_
    cases value with
    | object fields =>
      change Json.object (tableToFields (tableOfFields fields)) = .object (Table.mapValues rewritten fields)
      rw [tableToFields_tableOfFields]
    | _ => rfl
  · exact through _ _ toJson_texts
  · refine through _ _ fun value => ?_
    cases value with
    | array items =>
      change Json.array (listToItems (listOfItems items)) = .array (items.map rewritten)
      rw [listToItems_listOfItems]
    | _ => rfl
  · exact list (by decide)
  · exact single (by decide)
  · exact single (by decide)
  · exact list (by decide)
  · exact list (by decide)
  · exact list (by decide)
  · exact single (by decide)
  · exact single (by decide)
  · exact single (by decide)
  · exact single (by decide)
  · exact through _ _ fun value => by cases value <;> rfl
  · exact through _ _ fun value => by cases value <;> rfl

theorem keywords_of_holdsSchemas {value : Json} (holds : holdsSchemas key value) : key ∈ keywords := by
  unfold holdsSchemas at holds
  split_ifs at holds with properties items list single
  · exact properties ▸ by decide
  · exact items ▸ by decide
  · exact (show listKeywords ⊆ keywords by decide) list
  · exact (show singleKeywords ⊆ keywords by decide) single

/-- Every entry is written again under its name. -/
theorem lookup_rewritten (fields : Table Json) (key : String) :
    (nodeFields (nodeOfFields fields)).lookup key = (fields.lookup key).map (rewrittenUnder key) := by
  have carried : (nodeOfFields fields).extra = fields.filter fun entry => entry.1 ∉ keywords := by
    rw [nodeOfFields_eq]
  by_cases keyword : key ∈ keywords
  · rw [lookup_nodeFields ?_ keyword, written_nodeOfFields keyword]
    intro other inside
    obtain ⟨entry, member, rfl⟩ := List.mem_map.mp inside
    rw [carried, List.mem_filter] at member
    exact of_decide_eq_true member.2
  · have verbatim : rewrittenUnder key = id :=
      funext fun value => rewrittenUnder_of_not_holds (Bool.eq_false_iff.mpr (mt keywords_of_holdsSchemas keyword))
    rw [lookup_nodeFields_of_carried keyword, carried, Table.lookup_filter (fun name => name ∉ keywords),
      if_pos (decide_eq_true keyword), verbatim, Option.map_id, id]

/-- The names of what is written: the keywords that are present in their order, then all others in source order. -/
theorem keys_rewritten (fields : Table Json) : Table.keys (nodeFields (nodeOfFields fields)) =
    keywords.filter (· ∈ Table.keys fields) ++ (Table.keys fields).filter (· ∉ keywords) := by
  have present : (keywords.filter fun key => ((nodeOfFields fields).written key).isSome) =
      keywords.filter (· ∈ Table.keys fields) := by
    refine List.filter_congr fun key keyword => ?_
    rw [written_nodeOfFields keyword, Option.isSome_map, Bool.eq_iff_iff, Table.lookup_isSome_iff, decide_eq_true_iff]
  have carried : Table.keys (nodeOfFields fields).extra = (Table.keys fields).filter (· ∉ keywords) := by
    rw [nodeOfFields_eq, Table.keys, Table.keys, List.filter_map]
    rfl
  rw [nodeFields_eq_ofNames, Table.keys_append, Table.keys_ofNames, present, carried]

theorem keys_rewritten_perm (distinct : Table.Distinct fields) :
    (Table.keys fields).Perm (Table.keys (nodeFields (nodeOfFields fields))) := by
  have apart : (keywords.filter (· ∈ Table.keys fields) ++ (Table.keys fields).filter (· ∉ keywords)).Nodup := by
    refine List.Nodup.append (List.Nodup.filter _ (by decide)) (List.Nodup.filter _ distinct) ?_
    intro key inside outside
    exact of_decide_eq_true (List.mem_filter.mp outside).2 (List.mem_filter.mp inside).1
  rw [keys_rewritten, List.perm_ext_iff_of_nodup distinct apart]
  intro key
  by_cases keyword : key ∈ keywords <;> simp [keyword]

/-- Reading and writing changes a value in the order of entries only. -/
theorem reordered_rewritten {value : Json} (distinct : value.KeysDistinct) : value.Reordered (rewritten value) := by
  induction bound : value.size using Nat.strong_induction_on generalizing value with
  | _ size ih =>
    subst bound
    have under (key : String) (inner : Json) (smaller : inner.size < value.size) (distinct : inner.KeysDistinct) :
        inner.Reordered (rewrittenUnder key inner) := by
      unfold rewrittenUnder
      split
      · split
        · rename_i items
          refine .array (List.length_map ..).symm fun index item item' found found' => ?_
          rw [List.getElem?_map, found] at found'
          cases found'
          have member := List.mem_of_getElem? found
          rw [Json.KeysDistinct, Json.itemsKeysDistinct_iff] at distinct
          exact ih _ ((Json.size_lt_of_item member).trans smaller) (distinct item member) rfl
        · rename_i fields
          split
          · refine .object (.of_eq (Table.keys_mapValues ..).symm) fun name value value' found found' => ?_
            rw [Table.lookup_mapValues, found] at found'
            cases found'
            have member := Table.mem_of_lookup found
            exact ih _ ((Json.size_lt_of_entry member).trans smaller) (distinct.of_mem member) rfl
          · exact ih _ smaller distinct rfl
        · exact .same _
      · exact .same _
    cases value with
    | object fields =>
      refine .object (keys_rewritten_perm (Json.keysDistinct_object.mp distinct).1) fun name inner inner' found found' => ?_
      rw [lookup_rewritten, found] at found'
      cases found'
      have member := Table.mem_of_lookup found
      exact under name inner (Json.size_lt_of_entry member) (distinct.of_mem member)
    | _ => exact .same _

end

/-- The node keeps as malformed only what cannot be read otherwise, and carries no keyword along. -/
structure Faithful (n : Node) : Prop where
  types : ∀ value, n.types = some (.malformed value) → TypeNames.ofJson value = .malformed value
  enum : ∀ value, n.enum = some (.malformed value) → Slot.itemsOfJson value = .malformed value
  properties : ∀ value, n.properties = some (.malformed value) → tableOfJson value = .malformed value
  required : ∀ value, n.required = some (.malformed value) → Slot.textsOfJson value = .malformed value
  items : ∀ values, n.items ≠ some (.single (.malformed (.array values)))
  prefixItems : ∀ value, n.prefixItems = some (.malformed value) → slotOfJson value = .malformed value
  allOf : ∀ value, n.allOf = some (.malformed value) → slotOfJson value = .malformed value
  anyOf : ∀ value, n.anyOf = some (.malformed value) → slotOfJson value = .malformed value
  oneOf : ∀ value, n.oneOf = some (.malformed value) → slotOfJson value = .malformed value
  reference : ∀ value, n.reference = some (.malformed value) → Slot.textOfJson value = .malformed value
  nullable : ∀ value, n.nullable = some (.malformed value) → Slot.boolOfJson value = .malformed value
  carried : ∀ key ∈ Table.keys n.extra, key ∉ keywords

/-- Everywhere in the schema, what is kept as malformed cannot be read otherwise. -/
inductive Canonical : Schema → Prop
  | bool (value : Bool) : Canonical (.bool value)
  | malformed {value : Json} (unreadable : ofJson value = .malformed value) : Canonical (.malformed value)
  | node {n : Node} (here : Faithful n) (below : ∀ s ∈ n.subschemas .auxiliary, Canonical s) : Canonical (.node n)

section

variable {n : Node}

/-- What a slot holds is read back when it is valid, or cannot be read otherwise. -/
theorem slot_toJson {α : Type} {slot : Option (Slot α)} {read : Json → Slot α} {write : α → Json}
    (unreadable : ∀ value, slot = some (.malformed value) → read value = .malformed value)
    (valid : ∀ value, slot = some (.valid value) → read (write value) = .valid value) :
    (slot.map (Slot.toJson write)).map read = slot := by
  rcases slot with - | (value | value)
  · rfl
  · exact congrArg some (valid value rfl)
  · exact congrArg some (unreadable value rfl)

theorem schemas_toJson {schemas : List Schema} (each : ∀ s ∈ schemas, ofJson s.toJson = s) :
    listOfItems (listToItems schemas) = schemas := by
  rw [listToItems_eq, listOfItems_eq, List.map_map]
  exact (List.map_congr_left each).trans (List.map_id' _)

theorem table_toJson {table : Table Schema} (each : ∀ s ∈ table.map (·.2), ofJson s.toJson = s) :
    tableOfFields (tableToFields table) = table := by
  rw [tableToFields_eq, tableOfFields_eq, Table.mapValues, Table.mapValues, List.map_map]
  refine (List.map_congr_left fun entry member => ?_).trans (List.map_id' _)
  exact congrArg (entry.1, ·) (each entry.2 (List.mem_map_of_mem member))

theorem schema_toJson {schema : Option Schema} (each : ∀ s ∈ schema.toList, ofJson s.toJson = s) :
    (schema.map toJson).map ofJson = schema := by
  cases schema with
  | none => rfl
  | some s => exact congrArg some (each s (List.mem_singleton_self s))

theorem listed_toJson {slot : Option (Slot (List Schema))}
    (unreadable : ∀ value, slot = some (.malformed value) → slotOfJson value = .malformed value)
    (each : ∀ s ∈ NodeOf.listed slot, ofJson s.toJson = s) :
    (slot.map (Slot.toJson fun schemas => .array (listToItems schemas))).map slotOfJson = slot := by
  refine slot_toJson unreadable ?_
  rintro schemas rfl
  have own : ∀ s ∈ schemas, ofJson s.toJson = s := each
  rw [slotOfJson, schemas_toJson own]

theorem elements_toJson {items : Option (Items Schema)}
    (single : ∀ values, items ≠ some (.single (.malformed (.array values))))
    (each : ∀ s ∈ NodeOf.elements items, ofJson s.toJson = s) :
    (({ items } : Node).written "items").map elementsOfJson = items := by
  rcases items with - | (schemas | schema)
  · rfl
  · have own : ∀ s ∈ schemas, ofJson s.toJson = s := each
    change some (Items.positional (listOfItems (listToItems schemas))) = _
    rw [schemas_toJson own]
  · have own := each schema (List.mem_singleton_self schema)
    change some (elementsOfJson schema.toJson) = _
    cases schema with
    | bool value => rfl
    | node n => exact congrArg (some ∘ Items.single) own
    | malformed value =>
      cases value with
      | array values => exact absurd rfl (single values)
      | _ => exact congrArg (some ∘ Items.single) own

/-- A faithful node is read back as it is when its subschemas are. -/
theorem Faithful.nodeOfFields_nodeFields (faithful : Faithful n)
    (each : ∀ s ∈ n.subschemas .auxiliary, ofJson s.toJson = s) : nodeOfFields (nodeFields n) = n := by
  simp only [NodeOf.subschemas_auxiliary, NodeOf.subschemas_keywords, List.forall_mem_append] at each
  obtain ⟨⟨⟨⟨⟨⟨⟨⟨⟨⟨declared, elements⟩, additionalProperties⟩, allOf⟩, anyOf⟩, oneOf⟩, prefixItems⟩, condition⟩,
    consequent⟩, alternative⟩, not, additionalItems⟩ := each
  have found {key : String} (keyword : key ∈ keywords) := lookup_nodeFields faithful.carried keyword
  have types : (n.written "type").map TypeNames.ofJson = n.types := by
    refine slot_toJson faithful.types fun value _ => ?_
    cases value with
    | single name => rfl
    | multiple names => simp only [TypeNames.toJson, Json.ofTexts, TypeNames.ofJson, Json.texts?_map]
  have enum : (n.written "enum").map Slot.itemsOfJson = n.enum := slot_toJson faithful.enum fun _ _ => rfl
  have properties : (n.written "properties").map tableOfJson = n.properties := by
    refine slot_toJson faithful.properties fun table valid => ?_
    rw [valid] at declared
    rw [tableOfJson, table_toJson declared]
  have required : (n.written "required").map Slot.textsOfJson = n.required := by
    refine slot_toJson faithful.required fun names _ => ?_
    simp only [Json.ofTexts, Slot.textsOfJson, Json.texts?_map]
  have items : (n.written "items").map elementsOfJson = n.items := elements_toJson faithful.items elements
  have reference : (n.written "$ref").map Slot.textOfJson = n.reference :=
    slot_toJson faithful.reference fun _ _ => rfl
  have nullable : (n.written "nullable").map Slot.boolOfJson = n.nullable :=
    slot_toJson faithful.nullable fun _ _ => rfl
  have extra : (nodeFields n).filter (fun entry => entry.1 ∉ keywords) = n.extra := by
    have own : (Table.ofNames n.written keywords).filter (fun entry => entry.1 ∉ keywords) = [] := by
      refine List.filter_eq_nil_iff.mpr fun entry member => ?_
      have named : entry.1 ∈ Table.keys (Table.ofNames n.written keywords) := Table.name_mem_keys member
      rw [Table.keys_ofNames, List.mem_filter] at named
      simp [named.1]
    have carried : n.extra.filter (fun entry => entry.1 ∉ keywords) = n.extra :=
      List.filter_eq_self.mpr fun entry member => decide_eq_true (faithful.carried _ (Table.name_mem_keys member))
    rw [nodeFields_eq_ofNames, List.filter_append, own, carried, List.nil_append]
  rw [nodeOfFields_eq]
  simp (disch := decide) only [found, types, enum, properties, required, items, reference, nullable, extra]
  simp only [NodeOf.written, listed_toJson faithful.prefixItems prefixItems, listed_toJson faithful.allOf allOf,
    listed_toJson faithful.anyOf anyOf, listed_toJson faithful.oneOf oneOf, schema_toJson additionalItems,
    schema_toJson additionalProperties, schema_toJson not, schema_toJson condition, schema_toJson consequent,
    schema_toJson alternative]

/-- A canonical schema is read back as it is from what is written for it. -/
theorem Canonical.ofJson_toJson {schema : Schema} (canonical : Canonical schema) : ofJson schema.toJson = schema := by
  induction canonical with
  | bool value => rfl
  | malformed unreadable => exact unreadable
  | node here below ih =>
    rw [toJson, ofJson, here.nodeOfFields_nodeFields ih]

end

section

variable {fields : Table Json} {value kept : Json}

theorem malformed_typeNames (malformed : TypeNames.ofJson value = .malformed kept) : kept = value := by
  unfold TypeNames.ofJson at malformed
  split at malformed
  · cases malformed
  · split at malformed <;> cases malformed
    rfl
  · cases malformed
    rfl

theorem malformed_texts (malformed : Slot.textsOfJson value = .malformed kept) : kept = value := by
  unfold Slot.textsOfJson at malformed
  split at malformed
  · split at malformed <;> cases malformed
    rfl
  · cases malformed
    rfl

theorem malformed_slot (malformed : slotOfJson value = .malformed kept) : kept = value := by
  cases value <;> cases malformed <;> rfl

theorem malformed_ofJson (malformed : ofJson value = .malformed kept) : kept = value := by
  cases value <;> cases malformed <;> rfl

/-- A subschema that was read was read from a smaller value. -/
theorem mem_subschemas_nodeOfFields {s : Schema} (member : s ∈ (nodeOfFields fields).subschemas .auxiliary) :
    ∃ value, s = ofJson value ∧ value.size < (Json.object fields).size := by
  obtain ⟨key, held, holds, inside⟩ := NodeOf.exists_held_of_mem member
  obtain ⟨value, found, read⟩ := held_nodeOfFields holds
  obtain ⟨inner, same, small⟩ := read.size_le inside
  exact ⟨inner, same, small.trans_lt (Json.size_lt_of_entry (Table.mem_of_lookup found))⟩

theorem faithful_nodeOfFields (fields : Table Json) : Faithful (nodeOfFields fields) := by
  have slot {α : Type} {read : Json → Slot α} {found : Option Json} {kept : Json}
      (keeps : ∀ value kept, read value = .malformed kept → kept = value) (same : found.map read = some (.malformed kept)) :
      read kept = .malformed kept := by
    obtain ⟨value, -, malformed⟩ := Option.map_eq_some_iff.mp same
    exact keeps value kept malformed ▸ malformed
  rw [nodeOfFields_eq]
  constructor
  case types => exact fun _ => slot fun _ _ => malformed_typeNames
  case required => exact fun _ => slot fun _ _ => malformed_texts
  case prefixItems => exact fun _ => slot fun _ _ => malformed_slot
  case allOf => exact fun _ => slot fun _ _ => malformed_slot
  case anyOf => exact fun _ => slot fun _ _ => malformed_slot
  case oneOf => exact fun _ => slot fun _ _ => malformed_slot
  case enum => exact fun _ => slot fun value _ malformed => by cases value <;> cases malformed <;> rfl
  case properties => exact fun _ => slot fun value _ malformed => by cases value <;> cases malformed <;> rfl
  case reference => exact fun _ => slot fun value _ malformed => by cases value <;> cases malformed <;> rfl
  case nullable => exact fun _ => slot fun value _ malformed => by cases value <;> cases malformed <;> rfl
  case items =>
    intro values same
    obtain ⟨value, -, single⟩ := Option.map_eq_some_iff.mp same
    cases value <;> cases single
  case carried =>
    intro key inside
    obtain ⟨entry, member, rfl⟩ := List.mem_map.mp inside
    exact of_decide_eq_true (List.mem_filter.mp member).2

/-- Whatever is read is canonical. -/
theorem canonical_ofJson (value : Json) : Canonical (ofJson value) := by
  induction bound : value.size using Nat.strong_induction_on generalizing value with
  | _ size ih =>
    subst bound
    cases value with
    | bool value => exact .bool value
    | object fields =>
      refine .node (faithful_nodeOfFields fields) fun s member => ?_
      obtain ⟨value, rfl, smaller⟩ := mem_subschemas_nodeOfFields member
      exact ih _ smaller value rfl
    | _ => exact .malformed rfl

end

end Schema

end Schemata
