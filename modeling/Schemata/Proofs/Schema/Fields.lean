import Schemata.Proofs.Document.Standalone
import Schemata.Schema.Reader

namespace Schemata

/-- The keywords with a place of their own, in the order in which they are written. -/
def keywords : List String :=
  ["type", "const", "enum", "properties", "required", "items", "prefixItems", "additionalItems",
    "additionalProperties", "allOf", "anyOf", "oneOf", "not", "if", "then", "else", "$ref", "nullable"]

/-- The keywords that hold a list of schemas. -/
def listKeywords : List String := ["prefixItems", "allOf", "anyOf", "oneOf"]

/-- The keywords that hold one schema. -/
def singleKeywords : List String := ["additionalItems", "additionalProperties", "not", "if", "then", "else"]

namespace Table

variable {α : Type} {value? : String → Option α} {names : List String} {name : String}

/-- An entry for every name with a value, in the order of the names. -/
def ofNames (value? : String → Option α) (names : List String) : Table α :=
  names.flatMap fun name => (value? name).toList.map (name, ·)

theorem ofNames_cons : ofNames value? (name :: names) = (value? name).toList.map (name, ·) ++ ofNames value? names :=
  List.flatMap_cons

theorem lookup_ofNames : (ofNames value? names).lookup name = if name ∈ names then value? name else none := by
  induction names with
  | nil => rfl
  | cons first rest ih =>
    rw [ofNames_cons]
    by_cases same : name = first
    · subst same
      cases found : value? name <;> simp [ih, found]
    · have differ : (name == first) = false := beq_false_of_ne same
      cases value? first <;> simp [List.lookup_cons, ih, same, differ]

theorem keys_ofNames : keys (ofNames value? names) = names.filter fun name => (value? name).isSome := by
  induction names with
  | nil => rfl
  | cons first rest ih =>
    rw [ofNames_cons, keys_append, ih, List.filter_cons]
    cases value? first <;> rfl

end Table

namespace NodeOf

/-- The value that is written for a keyword; nothing for a keyword that is absent. -/
def written (n : Node) : String → Option Json
  | "type" => n.types.map (Slot.toJson TypeNames.toJson)
  | "const" => n.const
  | "enum" => n.enum.map (Slot.toJson Json.array)
  | "properties" => n.properties.map (Slot.toJson fun table => .object (Schema.tableToFields table))
  | "required" => n.required.map (Slot.toJson Json.ofTexts)
  | "items" => n.items.map fun
    | .positional schemas => .array (Schema.listToItems schemas)
    | .single schema => schema.toJson
  | "prefixItems" => n.prefixItems.map (Slot.toJson fun schemas => .array (Schema.listToItems schemas))
  | "additionalItems" => n.additionalItems.map Schema.toJson
  | "additionalProperties" => n.additionalProperties.map Schema.toJson
  | "allOf" => n.allOf.map (Slot.toJson fun schemas => .array (Schema.listToItems schemas))
  | "anyOf" => n.anyOf.map (Slot.toJson fun schemas => .array (Schema.listToItems schemas))
  | "oneOf" => n.oneOf.map (Slot.toJson fun schemas => .array (Schema.listToItems schemas))
  | "not" => n.not.map Schema.toJson
  | "if" => n.condition.map Schema.toJson
  | "then" => n.consequent.map Schema.toJson
  | "else" => n.alternative.map Schema.toJson
  | "$ref" => n.reference.map (Slot.toJson Json.string)
  | "nullable" => n.nullable.map (Slot.toJson Json.bool)
  | _ => none

end NodeOf

namespace Schema

theorem listToItems_eq (schemas : List Schema) : listToItems schemas = schemas.map toJson := by
  induction schemas with
  | nil => rfl
  | cons schema rest ih => rw [listToItems, ih, List.map_cons]

theorem listOfItems_eq (items : List Json) : listOfItems items = items.map ofJson := by
  induction items with
  | nil => rfl
  | cons item rest ih => rw [listOfItems, ih, List.map_cons]

theorem tableOfFields_eq (fields : Table Json) : tableOfFields fields = Table.mapValues ofJson fields := by
  induction fields with
  | nil => rfl
  | cons field rest ih =>
    obtain ⟨name, value⟩ := field
    rw [tableOfFields, ih]
    rfl

section

variable {n : Node} {key : String} {fields : Table Json}

theorem schemaEntry_eq (key : String) (schema : Option Schema) :
    schemaEntry key schema = Json.entry key (schema.map toJson) := by
  cases schema <;> simp [schemaEntry, Json.entry]

theorem listEntry_eq (key : String) (slot : Option (Slot (List Schema))) :
    listEntry key slot = Json.entry key (slot.map (Slot.toJson fun schemas => .array (listToItems schemas))) := by
  rcases slot with - | (schemas | value) <;> simp [listEntry, Json.entry, Slot.toJson]

theorem tableEntry_eq (key : String) (slot : Option (Slot (List (String × Schema)))) :
    tableEntry key slot = Json.entry key (slot.map (Slot.toJson fun table => .object (tableToFields table))) := by
  rcases slot with - | (table | value) <;> simp [tableEntry, Json.entry, Slot.toJson]

theorem itemsEntry_eq (n : Node) : itemsEntry n.items = Json.entry "items" (n.written "items") := by
  rw [NodeOf.written]
  rcases n.items with - | (schemas | schema) <;> simp [itemsEntry, Json.entry]

theorem entry_eq (key : String) (value : Option Json) : Json.entry key value = value.toList.map (key, ·) := by
  cases value <;> rfl

/-- A node is written as its keywords in order, and then what it carries along. -/
theorem nodeFields_eq_ofNames (n : Node) : nodeFields n = Table.ofNames n.written keywords ++ n.extra := by
  have items := itemsEntry_eq n
  obtain ⟨⟩ := n
  simp only [nodeFields, schemaEntry_eq, listEntry_eq, tableEntry_eq, items, keywords, Table.ofNames_cons,
    entry_eq, List.append_assoc]
  rfl

theorem lookup_nodeFields (carried : ∀ key ∈ Table.keys n.extra, key ∉ keywords) (keyword : key ∈ keywords) :
    (nodeFields n).lookup key = n.written key := by
  have absent : n.extra.lookup key = none := Table.lookup_eq_none fun inside => carried key inside keyword
  rw [nodeFields_eq_ofNames, List.lookup_append, Table.lookup_ofNames, if_pos keyword, absent, Option.or_none]

theorem lookup_nodeFields_of_written {value : Json} (keyword : key ∈ keywords) (present : n.written key = some value) :
    (nodeFields n).lookup key = some value := by
  rw [nodeFields_eq_ofNames, List.lookup_append, Table.lookup_ofNames, if_pos keyword, present, Option.some_or]

theorem lookup_nodeFields_of_carried (other : key ∉ keywords) : (nodeFields n).lookup key = n.extra.lookup key := by
  rw [nodeFields_eq_ofNames, List.lookup_append, Table.lookup_ofNames, if_neg other, Option.none_or]

def tableOfJson : Json → Slot (Table Schema)
  | .object fields => .valid (tableOfFields fields)
  | other => .malformed other

def elementsOfJson : Json → Items Schema
  | .array values => .positional (listOfItems values)
  | other => .single (ofJson other)

/-- Every keyword is read from the entry of its name, and all other entries are carried along. -/
theorem nodeOfFields_eq (fields : Table Json) : nodeOfFields fields =
    { types := (fields.lookup "type").map TypeNames.ofJson
      const := fields.lookup "const"
      enum := (fields.lookup "enum").map Slot.itemsOfJson
      properties := (fields.lookup "properties").map tableOfJson
      required := (fields.lookup "required").map Slot.textsOfJson
      items := (fields.lookup "items").map elementsOfJson
      prefixItems := (fields.lookup "prefixItems").map slotOfJson
      additionalItems := (fields.lookup "additionalItems").map ofJson
      additionalProperties := (fields.lookup "additionalProperties").map ofJson
      allOf := (fields.lookup "allOf").map slotOfJson
      anyOf := (fields.lookup "anyOf").map slotOfJson
      oneOf := (fields.lookup "oneOf").map slotOfJson
      not := (fields.lookup "not").map ofJson
      condition := (fields.lookup "if").map ofJson
      consequent := (fields.lookup "then").map ofJson
      alternative := (fields.lookup "else").map ofJson
      reference := (fields.lookup "$ref").map Slot.textOfJson
      nullable := (fields.lookup "nullable").map Slot.boolOfJson
      extra := fields.filter fun entry => entry.1 ∉ keywords } := by
  induction fields with
  | nil => rfl
  | cons field rest ih =>
    obtain ⟨key, value⟩ := field
    unfold nodeOfFields
    rw [ih]
    by_cases keyword : key ∈ keywords
    · simp only [keywords, List.mem_cons, List.not_mem_nil, or_false] at keyword
      rcases keyword with rfl | rfl | rfl | rfl | rfl | rfl | rfl | rfl | rfl | rfl | rfl | rfl | rfl | rfl | rfl |
        rfl | rfl | rfl <;>
        simp [List.lookup_cons, keywords] <;> cases value <;> rfl
    · have skipped (other : String) (member : other ∈ keywords) :
          ((key, value) :: rest).lookup other = rest.lookup other := by
        have differ : other ≠ key := by
          rintro rfl
          exact keyword member
        rw [List.lookup_cons, beq_false_of_ne differ]
      have carried : ((key, value) :: rest).filter (fun entry => entry.1 ∉ keywords) =
          (key, value) :: rest.filter fun entry => entry.1 ∉ keywords :=
        List.filter_cons_of_pos (decide_eq_true keyword)
      simp only [keywords, List.mem_cons, List.not_mem_nil, or_false, not_or] at keyword
      simp (disch := decide) only [keyword, if_false, skipped, carried]

end

end Schema

end Schemata
