import Mathlib.Data.Prod.Basic
import Schemata.Proofs.Document.Names
import Schemata.Proofs.Webhook.Chain
import Schemata.Proofs.Webhook.Payload

namespace Schemata

/-- The webhook and the method that a definition says it is made from. -/
def Schema.source? (schema : Schema) : Option (String × String) :=
  match schema.node? with
  | some n =>
    match n.extra.lookup "x-webhook", n.extra.lookup "x-webhook-method" with
    | some (.string webhook), some (.string method) => some (webhook, method)
    | _, _ => none
  | none => none

namespace Webhook

/-- The value lists the operation: it is an object under a method of an entry that is an object. -/
def Lists (webhooks : Json) (webhook method : String) (operation : Table Json) : Prop :=
  ∃ entries fields, webhooks = .object entries ∧ (webhook, .object fields) ∈ entries ∧
    (method, .object operation) ∈ fields ∧ method ∈ methods

/-- The table has the responses whose payload carries a schema, in order, each with that schema. -/
structure Answers (document : Json) (responses : Table Json) (table : Table Schema) : Prop where
  order : (Table.keys table).Sublist (Table.keys responses)
  mem_iff : ∀ status schema, (status, schema) ∈ table ↔ ∃ response payload, (status, response) ∈ responses ∧
    StandsFor document response payload ∧ Carries payload schema

/-- The node asks for an object with the payloads of the operation. -/
structure Describes (document : Json) (operation : Table Json) (n : Node) (properties : Table Schema) : Prop where
  types : n.types = some (.valid (.single "object"))
  declared : n.properties = some (.valid properties)
  names : (Table.keys properties).Sublist ["requestBody", "responses"]
  requestBody : ∀ schema, properties.lookup "requestBody" = some schema ↔ ∃ body payload,
    operation.lookup "requestBody" = some body ∧ StandsFor document body payload ∧ Carries payload schema
  responses : ∀ responses, operation.lookup "responses" = some (.object responses) →
    ∃ table, properties.lookup "responses" = some (.node (objectNode table)) ∧ Answers document responses table
  unanswered : (∀ responses, operation.lookup "responses" ≠ some (.object responses)) →
    properties.lookup "responses" = none
  required_iff : n.required.isSome ↔ "requestBody" ∈ Table.keys properties ∧ ∃ body payload,
    operation.lookup "requestBody" = some body ∧ StandsFor document body payload ∧
      payload.get? "required" = some (.bool true)
  required : ∀ slot, n.required = some slot → slot = .valid ["requestBody"]

variable {webhooks document body payload : Json} {webhook method : String} {operation responses : Table Json}
  {schema : Schema}

theorem mem_operations_iff : (webhook, method, operation) ∈ operations webhooks ↔
    Lists webhooks webhook method operation := by
  constructor
  · intro member
    obtain ⟨⟨name, entry⟩, listed, inside⟩ := List.mem_flatMap.mp member
    obtain ⟨⟨key, value⟩, given, kept⟩ := List.mem_filterMap.mp inside
    obtain ⟨entries, rfl, listed⟩ := Json.mem_object?_getD_iff.mp listed
    obtain ⟨fields, rfl, given⟩ := Json.mem_object?_getD_iff.mp given
    dsimp only at kept
    split at kept
    · rename_i known
      obtain ⟨object, found, same⟩ := Option.map_eq_some_iff.mp kept
      obtain rfl := Json.object?_eq_some_iff.mp found
      cases same
      exact ⟨entries, fields, rfl, listed, given, List.contains_iff_mem.mp known⟩
    · cases kept
  · rintro ⟨entries, fields, rfl, listed, given, known⟩
    refine List.mem_flatMap.mpr ⟨_, listed, List.mem_filterMap.mpr ⟨_, given, ?_⟩⟩
    simp [known, Json.object?]

theorem requestBody?_eq_some_iff : requestBody? document operation = some (payload, schema) ↔ ∃ body,
    operation.lookup "requestBody" = some body ∧ StandsFor document body payload ∧ Carries payload schema := by
  simp only [requestBody?, Option.bind_eq_bind, Option.bind_eq_some_iff, resolvePayload_eq_some_iff,
    payloadSchema?_eq_some_iff, Option.pure_def, Option.some.injEq, Prod.mk.injEq]
  constructor
  · rintro ⟨body, found, other, stands, carried, carries, rfl, rfl⟩
    exact ⟨body, found, stands, carries⟩
  · rintro ⟨body, found, stands, carries⟩
    exact ⟨body, found, payload, stands, schema, carries, rfl, rfl⟩

theorem answers_filterMap (document : Json) (responses : Table Json) :
    Answers document responses (responses.filterMap fun (status, response) =>
      ((resolvePayload document response).bind payloadSchema?).map (status, ·)) where
  order := Table.keys_filterMap_sublist (fun response => (resolvePayload document response).bind payloadSchema?) responses
  mem_iff status schema := by
    simp only [List.mem_filterMap, Prod.exists, Option.map_eq_some_iff, Option.bind_eq_some_iff, Prod.mk.injEq,
      resolvePayload_eq_some_iff, payloadSchema?_eq_some_iff]
    constructor
    · rintro ⟨_, response, member, _, ⟨payload, stands, carries⟩, rfl, rfl⟩
      exact ⟨response, payload, member, stands, carries⟩
    · rintro ⟨response, payload, member, stands, carries⟩
      exact ⟨status, response, member, schema, ⟨payload, stands, carries⟩, rfl, rfl⟩

theorem isRequired_iff : isRequired payload = true ↔ payload.get? "required" = some (.bool true) := by
  unfold isRequired
  split
  · rename_i value given
    simp [given]
  · rename_i other
    exact iff_of_false Bool.false_ne_true (other true)

theorem lookup_textEntry_of_ne {key other : String} (differ : other ≠ key) :
    (textEntry operation key).lookup other = none := by
  unfold textEntry
  split
  · rw [List.lookup_cons, beq_false_of_ne differ, List.lookup_nil]
  · rfl

theorem source?_definition (document : Json) (webhook method : String) (operation : Table Json) :
    (definition document webhook method operation).source? = some (webhook, method) := by
  have own (key : String) (differ : key ≠ "summary" ∧ key ≠ "description") (own : Table Json) :
      (textEntry operation "summary" ++ textEntry operation "description" ++ own).lookup key = own.lookup key := by
    rw [List.lookup_append, List.lookup_append, lookup_textEntry_of_ne differ.1, lookup_textEntry_of_ne differ.2,
      Option.none_or, Option.none_or]
  simp only [Schema.source?, definition, Schema.node?, own "x-webhook" (by decide), own "x-webhook-method" (by decide)]
  rfl

/-- The request body is required when its payload says so; a body without a schema is not asked for at all. -/
theorem required_requestBody_iff :
    (if ((requestBody? document operation).map fun (body, _) => isRequired body).getD false then
      some (Slot.valid ["requestBody"]) else none).isSome ↔
    (requestBody? document operation).isSome ∧ ∃ body payload, operation.lookup "requestBody" = some body ∧
      StandsFor document body payload ∧ payload.get? "required" = some (.bool true) := by
  cases request : requestBody? document operation with
  | none => simp
  | some pair =>
    obtain ⟨payload, schema⟩ := pair
    obtain ⟨body, found, stands, -⟩ := requestBody?_eq_some_iff.mp request
    simp only [Option.map_some, Option.getD_some, Option.isSome_ite, Option.isSome_some, true_and, isRequired_iff]
    constructor
    · exact fun required => ⟨body, payload, found, stands, required⟩
    · rintro ⟨_, last, again, same, required⟩
      obtain rfl := Option.some.inj (found.symm.trans again)
      rwa [stands.unique same]

/-- The properties of the definition, looked up. -/
theorem definition_eq (document : Json) (webhook method : String) (operation : Table Json) : ∃ properties extra,
    definition document webhook method operation = .node { objectNode properties with
      required := if ((requestBody? document operation).map fun (body, _) => isRequired body).getD false then
        some (.valid ["requestBody"]) else none
      extra } ∧
    (Table.keys properties).Sublist ["requestBody", "responses"] ∧
    properties.lookup "requestBody" = (requestBody? document operation).map (·.2) ∧
    properties.lookup "responses" = (responses? document operation).map fun table => .node (objectNode table) := by
  refine ⟨_, _, rfl, ?_⟩
  cases requestBody? document operation <;> cases responses? document operation <;>
    simp [List.lookup_cons]

/-- The definition of an operation describes it. -/
theorem describes_definition (document : Json) (webhook method : String) (operation : Table Json) :
    ∃ n properties, definition document webhook method operation = .node n ∧ Describes document operation n properties := by
  obtain ⟨properties, extra, same, names, body, answers⟩ := definition_eq document webhook method operation
  refine ⟨_, properties, same, rfl, rfl, names, fun schema => ?_, fun responses given => ?_, fun other => ?_, ?_, ?_⟩
  · simp only [body, Option.map_eq_some_iff, Prod.exists, exists_eq_right, requestBody?_eq_some_iff]
    exact exists_comm
  · refine ⟨_, ?_, answers_filterMap document responses⟩
    rw [answers, responses?, given]
    rfl
  · have nothing : responses? document operation = none := by
      rw [responses?, Option.map_eq_none_iff, Option.bind_eq_none_iff]
      rintro value found
      exact Option.eq_none_iff_forall_ne_some.mpr fun responses object =>
        other responses (Json.object?_eq_some_iff.mp object ▸ found)
    rw [answers, nothing, Option.map_none]
  · rw [← Table.lookup_isSome_iff, body, Option.isSome_map]
    exact required_requestBody_iff
  · intro slot given
    dsimp only at given
    split at given
    · exact (Option.some.inj given).symm
    · cases given

theorem source?_define (document : Json) (names : NameAllocator) (operations : List Operation) :
    (define document names operations).1.map (·.2.source?) =
      operations.map fun operation => some (operation.1, operation.2.1) := by
  induction operations generalizing names with
  | nil => rfl
  | cons operation rest ih =>
    obtain ⟨webhook, method, operation⟩ := operation
    rw [define, List.map_cons, List.map_cons, source?_definition, ih]

theorem exists_of_mem_define {names : NameAllocator} {operations : List Operation} {entry : String × Schema}
    (member : entry ∈ (define document names operations).1) : ∃ webhook method operation,
      (webhook, method, operation) ∈ operations ∧ entry.2 = definition document webhook method operation := by
  induction operations generalizing names with
  | nil => cases member
  | cons operation rest ih =>
    obtain ⟨webhook, method, operation⟩ := operation
    rw [define, List.mem_cons] at member
    rcases member with rfl | later
    · exact ⟨webhook, method, operation, List.mem_cons_self, rfl⟩
    · obtain ⟨webhook, method, operation, listed, same⟩ := ih later
      exact ⟨webhook, method, operation, List.mem_cons_of_mem _ listed, same⟩

theorem source?_definitions (webhooks document : Json) (names : NameAllocator) :
    (definitions webhooks document names).1.map (·.2.source?) = (pairs webhooks).map some := by
  rw [definitions, source?_define, ← operations_pairs, List.map_map]
  rfl

theorem mem_pairs_iff : (webhook, method) ∈ pairs webhooks ↔ ∃ operation, Lists webhooks webhook method operation := by
  simp only [← operations_pairs, List.mem_map, Prod.exists, Prod.mk.injEq]
  constructor
  · rintro ⟨_, _, operation, listed, rfl, rfl⟩
    exact ⟨operation, mem_operations_iff.mp listed⟩
  · rintro ⟨operation, listed⟩
    exact ⟨webhook, method, operation, mem_operations_iff.mpr listed, rfl, rfl⟩

theorem fst_of_mem_pairs {entry : String × Json} {pair : String × String}
    (member : pair ∈ pairs (.object [entry])) : pair.1 = entry.1 := by
  obtain ⟨webhook, method⟩ := pair
  obtain ⟨operation, entries, fields, same, listed, -⟩ := mem_pairs_iff.mp member
  obtain rfl := Json.object.inj same
  rw [← List.mem_singleton.mp listed]

/-- A webhook comes once, and each of its methods once. -/
theorem nodup_pairs (distinct : webhooks.KeysDistinct) : (pairs webhooks).Nodup := by
  cases webhooks with
  | object entries =>
    obtain ⟨names, each⟩ := Json.keysDistinct_object.mp distinct
    have split : pairs (.object entries) = entries.flatMap fun entry => pairs (.object [entry]) :=
      List.flatMap_congr fun entry _ => (List.flatMap_singleton _ _).symm
    rw [split]
    refine List.nodup_flatMap.mpr ⟨fun entry member => ?_, (List.pairwise_map.mp names).imp fun differ pair first second =>
      differ ((fst_of_mem_pairs first).symm.trans (fst_of_mem_pairs second))⟩
    obtain ⟨webhook, value⟩ := entry
    cases value with
    | object fields =>
      have own := (Json.keysDistinct_object.mp (each _ member)).1.sublist
        (List.filter_sublist (p := fun field => field.1 ∈ methods ∧ field.2.object?.isSome))
      have keys := own.map (Prod.mk_right_injective webhook)
      rw [Table.keys, List.map_map] at keys
      rw [pairs, List.flatMap_singleton]
      exact keys
    | _ => exact List.nodup_nil
  | _ => exact List.nodup_nil

theorem definitions_eq_nil_iff {names : NameAllocator} :
    (definitions webhooks document names).1 = [] ↔ pairs webhooks = [] := by
  rw [← List.map_eq_nil_iff (f := fun entry : String × Schema => entry.2.source?), source?_definitions, List.map_eq_nil_iff]

/-- The pass has changed something when it has made a definition. -/
theorem webhooks_applied_iff {source : Document} {settings : NormalizeSettings} {changed : Bool}
    (runs : settings.skips source.version .webhooks = none) :
    (.webhooks, .applied changed) ∈ (SchemaSet.ofDocument source settings).passes ↔
      (changed = true ↔ pairs source.webhooks ≠ []) := by
  rw [SchemaSet.webhooks_reported, SchemaSet.webhookDefinitions, runs, Outcome.applied.injEq, Bool.eq_iff_iff,
    Bool.not_eq_true', List.isEmpty_eq_false_iff, Ne, definitions_eq_nil_iff]

/-- The definitions stand for the operations, one for each and in their order. Their names are the first free forms of
what the operations ask for; each says where it is from and describes its operation. The pass reports a change when there
is an operation. -/
theorem definitions_describe (webhooks document : Json) (names : NameAllocator) :
    let table := (definitions webhooks document names).1
    table.map (·.2.source?) = (pairs webhooks).map some ∧
    (webhooks.KeysDistinct → (pairs webhooks).Nodup) ∧
    (∀ webhook method, (webhook, method) ∈ pairs webhooks ↔ ∃ operation, Lists webhooks webhook method operation) ∧
    names.Gives (definitions webhooks document names).2 (Table.keys table) ∧
    NameAllocator.Named names.taken ((pairs webhooks).map fun pair => baseName pair.1 pair.2) (Table.keys table) ∧
    (∀ entry ∈ table, ∃ webhook method operation n properties, Lists webhooks webhook method operation ∧
      entry.2 = .node n ∧ entry.2.source? = some (webhook, method) ∧ Describes document operation n properties) ∧
    ∀ source settings, source.webhooks = webhooks → settings.skips source.version .webhooks = none →
      ∀ changed, (.webhooks, .applied changed) ∈ (SchemaSet.ofDocument source settings).passes ↔
        (changed = true ↔ pairs webhooks ≠ []) := by
  intro table
  have gives := NameAllocator.allocateAll_gives names ((pairs webhooks).map fun pair => baseName pair.1 pair.2)
  have named := NameAllocator.allocateAll_named names ((pairs webhooks).map fun pair => baseName pair.1 pair.2)
  rw [allocateAll_pairs webhooks document] at gives named
  refine ⟨source?_definitions webhooks document names, nodup_pairs, fun _ _ => mem_pairs_iff, gives, named,
    fun entry member => ?_, fun source settings same runs changed => ?_⟩
  · obtain ⟨webhook, method, operation, listed, made⟩ := exists_of_mem_define member
    obtain ⟨n, properties, node, describes⟩ := describes_definition document webhook method operation
    refine ⟨webhook, method, operation, n, properties, mem_operations_iff.mp listed, made.trans node, ?_, describes⟩
    rw [made, source?_definition]
  · rw [← same]
    exact webhooks_applied_iff runs

/-- Two webhooks that ask for one name, which is reserved. -/
theorem definitions_describe_pet :
    let webhooks := Json.object [("new-pet", .object [("get", .object [])]),
      ("newPet", .object [("get", .object []), ("summary", .object [])])]
    let source := Document.ofJson (.object [("openapi", .string "3.1.0"), ("webhooks", webhooks)])
    webhooks.KeysDistinct ∧ (pairs webhooks).Nodup ∧
      Table.keys (definitions webhooks .null (.reserving ["NewPetGetWebhook"])).1 =
        ["NewPetGetWebhook2", "NewPetGetWebhook3"] ∧
      (.webhooks, .applied true) ∈ (SchemaSet.ofDocument source {}).passes := by
  intro webhooks source
  have distinct : webhooks.KeysDistinct := by
    simp [webhooks, Json.KeysDistinct, Json.FieldsKeysDistinct, Table.Distinct]
  obtain ⟨-, once, -, -, -, -, applied⟩ := definitions_describe webhooks .null (.reserving ["NewPetGetWebhook"])
  have runs : NormalizeSettings.skips {} source.version .webhooks = none := by decide +kernel
  exact ⟨distinct, once distinct, by decide +kernel, (applied source {} rfl runs true).mpr (by decide +kernel)⟩

end Webhook

end Schemata
