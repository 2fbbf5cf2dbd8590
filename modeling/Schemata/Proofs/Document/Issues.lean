import Schemata.Proofs.Pass.Properties
import Schemata.Proofs.Webhook.Definition

namespace Schemata

namespace Schema

/-- What is written for the schema shows it as it is: it is read back, and no two properties of a node share a path. -/
structure Legible (schema : Schema) : Prop where
  canonical : Canonical schema
  distinct : schema.PropertiesDistinct

variable {schema : Schema}

theorem legible_ofJson {value : Json} (distinct : value.KeysDistinct) : (ofJson value).Legible :=
  ⟨canonical_ofJson value, propertiesDistinct_ofJson distinct⟩

theorem Legible.withoutBlocks (legible : schema.Legible) : schema.withoutBlocks.Legible :=
  ⟨legible.canonical.withoutBlocks, legible.distinct.withoutBlocks⟩

end Schema

theorem Owner.legible_rewrite {owner : Owner} {schema : Schema} (legible : schema.Legible) :
    (owner.rewrite schema).Legible :=
  ⟨canonical_rewrite legible.canonical,
    rewrite_induction legible.distinct fun moves => Schema.propertiesDistinct_redirect moves legible.distinct⟩

/-- Where all definitions are legible, so is everything that hoisting makes of them. -/
theorem legible_hoistDefinitions {definitions : Table Schema} (legible : ∀ entry ∈ definitions, entry.2.Legible)
    (distinct : ∀ entry ∈ definitions, entry.2.ExtraDistinct) :
    ∀ entry ∈ (hoistDefinitions definitions).1, entry.2.Legible := by
  rw [hoistDefinitions_eq, List.forall_mem_map]
  intro t member
  have own : t.own.schema.Legible := by
    refine (trails_induction (P := fun t => t.own.schema.Legible ∧ t.own.schema.ExtraDistinct) (fun own _ listed => ?_)
      (fun outer own around _ listed => ?_) member).1
    · exact ⟨legible _ listed, distinct _ listed⟩
    · obtain ⟨block, inside, same⟩ := Owner.mem_inner listed
      rw [show own.schema = Schema.ofJson block.2.2 from same]
      have keys := around.2.keysDistinct_of_entry inside
      exact ⟨Schema.legible_ofJson keys, Schema.extraDistinct_ofJson keys⟩
  have received : (Trail.received t.above t.own.schema.withoutBlocks).Legible := by
    cases t.above with
    | nil => exact own.withoutBlocks
    | cons parent others => exact Owner.legible_rewrite own.withoutBlocks
  exact Owner.legible_rewrite received

namespace Webhook

variable {document payload found : Json} {schema : Schema} {operation : Table Json}

/-- The schema of a payload is read from a part of it. -/
theorem Carries.legible (carries : Carries payload schema) (distinct : payload.KeysDistinct) : schema.Legible := by
  cases carries with
  | bool value => exact Schema.legible_ofJson distinct
  | content named preferred given =>
    obtain ⟨name, listed⟩ := preferred.mem
    exact Schema.legible_ofJson (((distinct.of_mem (Table.mem_of_lookup named)).of_mem listed).get? given)
  | bare without member telling => exact Schema.legible_ofJson distinct

theorem StandsFor.legible (stands : StandsFor document payload found) (carries : Carries found schema)
    (whole : document.KeysDistinct) (own : payload.KeysDistinct) : schema.Legible := by
  obtain ⟨hops, -, chain, -⟩ := stands
  exact carries.legible (chain.keysDistinct whole own)

/-- An object node is legible when its properties are, whatever it requires and carries along besides. -/
theorem legible_objectNode {properties : Table Schema} {required : Option (Slot (List String))} {extra : Table Json}
    (names : Table.Distinct properties) (each : ∀ entry ∈ properties, entry.2.Legible)
    (wellFormed : ∀ value, required ≠ some (.malformed value)) (carried : ∀ key ∈ Table.keys extra, key ∉ keywords) :
    (Schema.node { objectNode properties with required, extra }).Legible := by
  have below (s : Schema) (member : s ∈ NodeOf.subschemas .auxiliary { objectNode properties with required, extra }) :
      s.Legible := by
    simp only [objectNode, NodeOf.subschemas_auxiliary, NodeOf.subschemas_keywords, NodeOf.declared, NodeOf.elements,
      NodeOf.listed, Option.toList_none, List.append_nil] at member
    obtain ⟨entry, inside, rfl⟩ := List.mem_map.mp member
    exact each entry inside
  constructor
  · refine .node ?_ fun s member => (below s member).canonical
    constructor <;> first
      | exact carried
      | exact fun value given => absurd given (wellFormed value)
      | (intro value given; cases given)
  · refine Schema.every_node.mpr ⟨fun table given => ?_, fun s member => (below s member).distinct⟩
    cases given
    exact names

theorem legible_definition (whole : document.KeysDistinct) (own : (Json.object operation).KeysDistinct)
    (webhook method : String) : (definition document webhook method operation).Legible := by
  have body (payload : Json) (schema : Schema) (given : requestBody? document operation = some (payload, schema)) :
      schema.Legible := by
    obtain ⟨source, found, stands, carries⟩ := requestBody?_eq_some_iff.mp given
    exact stands.legible carries whole (own.of_mem (Table.mem_of_lookup found))
  have answers (table : Table Schema) (given : responses? document operation = some table) :
      Table.Distinct table ∧ ∀ entry ∈ table, entry.2.Legible := by
    obtain ⟨responses, found, rfl⟩ := Option.map_eq_some_iff.mp given
    obtain ⟨value, listed, object⟩ := Option.bind_eq_some_iff.mp found
    obtain rfl := Json.object?_eq_some_iff.mp object
    have inside := own.of_mem (Table.mem_of_lookup listed)
    have read := answers_filterMap document responses
    refine ⟨List.Nodup.sublist read.order (Json.keysDistinct_object.mp inside).1, fun entry member => ?_⟩
    obtain ⟨response, payload, kept, stands, carries⟩ := (read.mem_iff entry.1 entry.2).mp member
    exact stands.legible carries whole (inside.of_mem kept)
  have answerNode (table : Table Schema) (given : responses? document operation = some table) :
      (Schema.node (objectNode table)).Legible := by
    obtain ⟨names, each⟩ := answers table given
    refine legible_objectNode names each (fun value given => ?_) fun key member => absurd member List.not_mem_nil
    cases given
  unfold definition
  refine legible_objectNode ?_ ?_ ?_ ?_
  · cases requestBody? document operation <;> cases responses? document operation <;>
      simp [Table.Distinct, Table.keys]
  · refine List.forall_mem_append.mpr ⟨?_, ?_⟩
    · cases request : requestBody? document operation with
      | none => exact fun entry member => absurd member List.not_mem_nil
      | some pair => exact List.forall_mem_singleton.mpr (body pair.1 pair.2 request)
    · cases response : responses? document operation with
      | none => exact fun entry member => absurd member List.not_mem_nil
      | some table => exact List.forall_mem_singleton.mpr (answerNode table response)
  · intro value given
    split at given <;> cases given
  · obtain ⟨summary, first⟩ := textEntry_sublist operation "summary"
    obtain ⟨description, second⟩ := textEntry_sublist operation "description"
    have other : ∀ key ∈ ["summary", "description", "x-webhook", "x-webhook-method"], key ∉ keywords := by decide
    have inside := ((first.append second).append_right
      [("x-webhook", Json.string webhook), ("x-webhook-method", .string method)]).map (·.1)
    exact fun key member => other key (inside.subset member)

theorem keysDistinct_of_mem_operations {webhooks : Json} (distinct : webhooks.KeysDistinct) :
    ∀ operation ∈ operations webhooks, (Json.object operation.2.2).KeysDistinct := by
  intro operation member
  obtain ⟨entries, fields, rfl, listed, given, -⟩ := mem_operations_iff.mp member
  exact (distinct.of_mem listed).of_mem given

theorem legible_define (whole : document.KeysDistinct) (names : NameAllocator) {operations : List Operation}
    (each : ∀ operation ∈ operations, (Json.object operation.2.2).KeysDistinct) :
    ∀ entry ∈ (define document names operations).1, entry.2.Legible := by
  induction operations generalizing names with
  | nil => exact fun entry member => absurd member List.not_mem_nil
  | cons operation rest ih =>
    obtain ⟨first, others⟩ := List.forall_mem_cons.mp each
    obtain ⟨webhook, method, operation⟩ := operation
    exact List.forall_mem_cons.mpr ⟨legible_definition whole first webhook method, ih _ others⟩

end Webhook

namespace SchemaSet

variable {document : Document}

theorem legible_webhookDefinitions (parsed : document.Parsed) (settings : NormalizeSettings) :
    ∀ entry ∈ (webhookDefinitions document settings).1, entry.2.Legible := by
  obtain ⟨raw, distinct, rfl⟩ := parsed
  have webhooks : (Document.ofJson raw).webhooks.KeysDistinct := by
    unfold Document.webhooks
    cases found : (Document.ofJson raw).raw.get? "webhooks" with
    | none => trivial
    | some value => exact distinct.get? found
  unfold webhookDefinitions
  split
  · exact fun entry member => absurd member List.not_mem_nil
  · exact Webhook.legible_define distinct _ (Webhook.keysDistinct_of_mem_operations webhooks)

/-- The normal form of a document is legible. -/
theorem legible_ofDocument (parsed : document.Parsed) (settings : NormalizeSettings) :
    ∀ entry ∈ (ofDocument document settings).definitions, entry.2.Legible := by
  have read : ∀ entry ∈ document.definitions, entry.2.Legible := by
    intro entry member
    obtain ⟨value, distinct, same⟩ := parsed.read entry member
    exact same ▸ Schema.legible_ofJson distinct
  have proper : ∀ entry ∈ document.definitions ++ (webhookDefinitions document settings).1, entry.2.Proper :=
    List.forall_mem_append.mpr ⟨parsed.proper, proper_webhookDefinitions document settings⟩
  have hoisted := legible_hoistDefinitions
    (List.forall_mem_append.mpr ⟨read, legible_webhookDefinitions parsed settings⟩)
    fun entry member => (proper entry member).distinct
  have given : ∀ pass ∈ settings.running document.version Pass.order, ∃ transform, pass.transform? = some transform :=
    fun pass => NormalizeSettings.transform_of_running
  have ordered := settings.pairwise_running document.version
  rw [(ofDocument_definitions document settings).1, run_definitions, Table.mapValues, List.forall_mem_map]
  intro entry member
  exact ⟨canonical_transformed given ordered (hoisted entry member).canonical,
    transformed_induction (P := fun _ schema => schema.PropertiesDistinct) given ordered
      (fun _ _ _ _ known _ => Schema.propertiesDistinct_transform known) (hoisted entry member).distinct⟩

/-- At the end of the path, from the object that holds all definitions, stands a value of the wrong shape. -/
def MalformedAt (set : SchemaSet) (pointer : Pointer) (value : Json) : Prop :=
  ∃ name schema path, (name, schema) ∈ set.definitions ∧ pointer = "definitions" :: name :: path ∧
    schema.MalformedAt path value

section

variable {set : SchemaSet}

theorem pointers_issuesOf (definitions : Table Schema) : (issuesOf definitions).map (·.pointer) =
    definitions.flatMap fun entry => (entry.2.issues.map (·.pointer)).map fun path => "definitions" :: entry.1 :: path := by
  rw [issuesOf, List.map_flatMap]
  simp only [List.map_map]
  rfl

/-- The pointers from the object that holds all definitions lead through one of them. -/
theorem resolve_whole (set : SchemaSet) (name : String) (path : Pointer) :
    set.whole.resolve? ("definitions" :: name :: path) =
      (set.definitions.lookup name).bind fun schema => schema.toJson.resolve? path := by
  simp only [whole, toJson, Schema.tableToFields_eq, Json.resolve?, Json.member?, List.lookup_cons, beq_self_eq_true,
    Option.bind_some, Table.lookup_mapValues, Option.bind_map]
  rfl

theorem resolve_whole_of_mem (distinct : Table.Distinct set.definitions) {name : String} {schema : Schema}
    (member : (name, schema) ∈ set.definitions) (path : Pointer) :
    set.whole.resolve? ("definitions" :: name :: path) = schema.toJson.resolve? path := by
  rw [resolve_whole, Table.lookup_of_mem distinct member, Option.bind_some]

theorem mem_pointers_iff (definitions : Table Schema) {pointer : Pointer} :
    pointer ∈ (issuesOf definitions).map (·.pointer) ↔ ∃ name schema path, (name, schema) ∈ definitions ∧
      pointer = "definitions" :: name :: path ∧ ∃ value, schema.MalformedAt path value := by
  rw [pointers_issuesOf, List.mem_flatMap]
  constructor
  · rintro ⟨⟨name, schema⟩, member, inside⟩
    obtain ⟨path, reported, rfl⟩ := List.mem_map.mp inside
    exact ⟨name, schema, path, member, rfl, Schema.mem_pointers_iff.mp reported⟩
  · rintro ⟨name, schema, path, member, rfl, there⟩
    exact ⟨(name, schema), member, List.mem_map_of_mem (Schema.mem_pointers_iff.mpr there)⟩

theorem pointers_nodup {definitions : Table Schema} (distinct : Table.Distinct definitions)
    (each : ∀ entry ∈ definitions, entry.2.PropertiesDistinct) : ((issuesOf definitions).map (·.pointer)).Nodup := by
  rw [pointers_issuesOf]
  refine List.pairwise_flatMap.mpr ⟨fun entry member => ?_, (List.pairwise_map.mp distinct).imp ?_⟩
  · refine (Schema.pointers_nodup (each entry member)).map fun path path' same => ?_
    exact (List.cons.inj (List.cons.inj same).2).2
  · rintro entry entry' differ pointer inside pointer' inside' rfl
    obtain ⟨path, -, rfl⟩ := List.mem_map.mp inside
    obtain ⟨path', -, same⟩ := List.mem_map.mp inside'
    exact differ (List.cons.inj (List.cons.inj same).2).1.symm

end

/-- The issues of a document are exact. There is an issue at a pointer exactly when a value of the wrong shape stands there;
no two issues have one pointer; every pointer leads to the value in what is written for the definitions; and altogether the
pointers lead to every such value as often as a walk over all definitions meets it. There are no issues exactly when reading
back what is written meets no such value. -/
theorem issues_ofDocument (parsed : document.Parsed) (settings : NormalizeSettings) :
    let set := ofDocument document settings
    (∀ pointer, (∃ issue ∈ set.issues, issue.pointer = pointer) ↔ ∃ value, set.MalformedAt pointer value) ∧
    (set.issues.map (·.pointer.text)).Nodup ∧
    (∀ pointer value, set.MalformedAt pointer value → set.whole.pointer? pointer.text = some value) ∧
    (set.issues.map fun issue => set.whole.pointer? issue.pointer.text).Perm
      ((set.definitions.flatMap fun entry => entry.2.malformedValues).map some) ∧
    (set.issues = [] ↔ ∀ name written, set.whole.resolve? ["definitions", name] = some written →
      ∀ path value, ¬ (Schema.ofJson written).MalformedAt path value) := by
  intro set
  have names : Table.Distinct set.definitions := by
    rw [Table.Distinct, keys_ofDocument_eq]
    exact distinct_hoistDefinitions (distinct_webhookDefinitions parsed settings)
  have legible := legible_ofDocument parsed settings
  have listed (pointer : Pointer) : (∃ issue ∈ set.issues, issue.pointer = pointer) ↔
      ∃ value, set.MalformedAt pointer value := by
    refine List.mem_map.symm.trans ((mem_pointers_iff set.definitions).trans ?_)
    constructor
    · rintro ⟨name, schema, path, member, same, value, there⟩
      exact ⟨value, name, schema, path, member, same, there⟩
    · rintro ⟨value, name, schema, path, member, same, there⟩
      exact ⟨name, schema, path, member, same, value, there⟩
  refine ⟨listed, ?_, ?_, ?_, ?_⟩
  · have pointers := pointers_nodup names fun entry member => (legible entry member).distinct
    have texts := pointers.map Pointer.text_injective
    rwa [List.map_map] at texts
  · rintro pointer value ⟨name, schema, path, member, rfl, there⟩
    rw [Json.pointer?_text, resolve_whole_of_mem names member]
    exact there.resolve_toJson (legible _ member).distinct
  · simp only [Json.pointer?_text]
    change ((issuesOf set.definitions).map fun issue => set.whole.resolve? issue.pointer).Perm _
    rw [issuesOf, List.map_flatMap, List.map_flatMap]
    refine List.Perm.flatMap_left _ fun entry member => ?_
    refine (List.Perm.of_eq ?_).trans (Schema.values_perm (legible entry member).distinct)
    rw [List.map_map]
    exact List.map_congr_left fun issue _ => resolve_whole_of_mem names member issue.pointer
  · have unreported : set.issues = [] ↔ ∀ pointer value, ¬ set.MalformedAt pointer value := by
      rw [← List.map_eq_nil_iff (f := fun issue : Issue => issue.pointer), List.eq_nil_iff_forall_not_mem]
      refine forall_congr' fun pointer => ?_
      rw [List.mem_map, listed pointer, not_exists]
    rw [unreported]
    constructor
    · intro none name written found path value there
      rw [resolve_whole] at found
      obtain ⟨schema, kept, same⟩ := Option.bind_eq_some_iff.mp found
      obtain rfl := Option.some.inj same
      have member := Table.mem_of_lookup kept
      rw [(legible _ member).canonical.ofJson_toJson] at there
      exact none _ value ⟨name, schema, path, member, rfl, there⟩
    · rintro readable pointer value ⟨name, schema, path, member, rfl, there⟩
      refine readable name schema.toJson (resolve_whole_of_mem names member []) path value ?_
      rwa [(legible _ member).canonical.ofJson_toJson]

/-- A type that is no name, a property that is no schema, and a keyword below `not`, all under names with slashes and
tildes. -/
theorem issues_ofDocument_escaped :
    let document := Document.ofJson (.object [("definitions", .object [("a/b", .object
      [("type", .bool true), ("properties", .object [("~x", .null)]), ("not", .object [("enum", .string "")])])])])
    let set := ofDocument document {}
    document.Parsed ∧
      set.issues.map (·.pointer.text) =
        ["/definitions/a~1b/type", "/definitions/a~1b/properties/~0x", "/definitions/a~1b/not/enum"] ∧
      (set.issues.map (·.pointer.text)).Nodup ∧
      set.whole.pointer? "/definitions/a~1b/properties/~0x" = some .null := by
  intro document set
  have parsed : document.Parsed := by
    refine ⟨_, ?_, rfl⟩
    simp [Json.KeysDistinct, Json.FieldsKeysDistinct, Table.Distinct]
  obtain ⟨-, distinct, leads, -⟩ := issues_ofDocument parsed {}
  refine ⟨parsed, by decide +kernel, distinct, ?_⟩
  let schema : Schema := .node
    { types := some (.malformed (.bool true)), properties := some (.valid [("~x", .malformed .null)])
      not := some (.node { enum := some (.malformed (.string "")) }) }
  have only : set.definitions = [("a/b", schema)] := rfl
  have there : schema.MalformedAt ["properties", "~x"] .null :=
    .inside (show (["properties", "~x"], Schema.malformed .null) ∈ _ from List.mem_cons_self) (.position .null)
  exact leads _ _ ⟨"a/b", schema, _, only ▸ List.mem_cons_self, rfl, there⟩

end SchemaSet

end Schemata
