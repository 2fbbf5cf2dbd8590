import Mathlib.Data.Option.Basic
import Schemata.Proofs.Webhook.Definition
import Schemata.Webhook.Check

namespace Schemata

namespace Webhook

/-- Every method key of the entries that are objects, with the webhook, in source order. -/
def methodKeys : Json → List (String × String)
  | .object entries => entries.flatMap fun (webhook, entry) =>
    match entry with
    | .object fields => (fields.filter fun field => field.1 ∈ methods).map fun field => (webhook, field.1)
    | _ => []
  | _ => []

/-- The problem is one of the value. -/
inductive Flawed : Json → Flaw → Prop
  | notAMap {webhooks : Json} (present : webhooks ≠ .null) (other : ∀ entries, webhooks ≠ .object entries) :
      Flawed webhooks .notAMap
  | entryNotAnObject {entries : Table Json} {webhook : String} {entry : Json} (listed : (webhook, entry) ∈ entries)
      (other : ∀ fields, entry ≠ .object fields) : Flawed (.object entries) (.entryNotAnObject webhook)
  | noMethods {entries fields : Table Json} {webhook : String} (listed : (webhook, .object fields) ∈ entries)
      (without : ∀ field ∈ fields, field.1 ∉ methods) : Flawed (.object entries) (.noMethods webhook)
  | methodNotAnObject {entries fields : Table Json} {webhook method : String} {value : Json}
      (listed : (webhook, .object fields) ∈ entries) (given : (method, value) ∈ fields) (known : method ∈ methods)
      (other : ∀ operation, value ≠ .object operation) :
      Flawed (.object entries) (.methodNotAnObject webhook method)
  | emptyOperation {webhooks : Json} {webhook method : String} {operation : Table Json}
      (lists : Lists webhooks webhook method operation) (body : "requestBody" ∉ Table.keys operation)
      (responses : "responses" ∉ Table.keys operation) : Flawed webhooks (.emptyOperation webhook method)

variable {webhooks document entry value : Json} {webhook method : String} {entries fields : Table Json} {flaw : Flaw}

theorem operationFlaw_eq_some_iff : operationFlaw webhook method value = some flaw ↔
    ((∀ operation, value ≠ .object operation) ∧ flaw = .methodNotAnObject webhook method) ∨
    ∃ operation, value = .object operation ∧ "requestBody" ∉ Table.keys operation ∧
      "responses" ∉ Table.keys operation ∧ flaw = .emptyOperation webhook method := by
  cases value with
  | object operation =>
    have present : (Table.has operation "requestBody" || Table.has operation "responses") = true ↔
        "requestBody" ∈ Table.keys operation ∨ "responses" ∈ Table.keys operation := by
      simp only [Table.has, Bool.or_eq_true, Table.lookup_isSome_iff]
    rw [operationFlaw, Option.ite_none_left_eq_some, present, not_or]
    simp [eq_comm, and_assoc]
  | _ => simp [operationFlaw, eq_comm]

theorem entryFlaws_of_other (other : ∀ fields, entry ≠ .object fields) :
    entryFlaws webhook entry = [.entryNotAnObject webhook] := by
  cases entry with
  | object fields => exact absurd rfl (other fields)
  | _ => rfl

theorem mem_entryFlaws_iff : flaw ∈ entryFlaws webhook (.object fields) ↔
    ((∀ field ∈ fields, field.1 ∉ methods) ∧ flaw = .noMethods webhook) ∨
    ∃ method value, (method, value) ∈ fields ∧ method ∈ methods ∧ operationFlaw webhook method value = some flaw := by
  have known (field : String × Json) : field ∈ fields.filter (fun (key, _) => methods.contains key) ↔
      field ∈ fields ∧ field.1 ∈ methods := by
    rw [List.mem_filter, List.contains_iff_mem]
  rw [entryFlaws]
  split
  · rename_i without
    have none (field : String × Json) (member : field ∈ fields) : field.1 ∉ methods := fun method =>
      absurd ((known field).mpr ⟨member, method⟩) (without ▸ List.not_mem_nil)
    rw [List.mem_singleton]
    refine ⟨fun same => Or.inl ⟨none, same⟩, fun reported => reported.elim (·.2) ?_⟩
    rintro ⟨method, value, member, listed, -⟩
    exact absurd listed (none _ member)
  · rename_i some
    rw [List.mem_filterMap]
    constructor
    · rintro ⟨⟨method, value⟩, listed, reported⟩
      obtain ⟨member, listed⟩ := (known _).mp listed
      exact Or.inr ⟨method, value, member, listed, reported⟩
    · rintro (⟨none, -⟩ | ⟨method, value, member, listed, reported⟩)
      · refine absurd (List.filter_eq_nil_iff.mpr fun field member => ?_) some
        exact mt List.contains_iff_mem.mp (none field member)
      · exact ⟨(method, value), (known _).mpr ⟨member, listed⟩, reported⟩

theorem mem_flaws_object_iff : flaw ∈ flaws (.object entries) ↔
    ∃ webhook entry, (webhook, entry) ∈ entries ∧ flaw ∈ entryFlaws webhook entry := by
  simp only [flaws, List.mem_flatMap, Prod.exists]

theorem flaws_of_other (present : webhooks ≠ .null) (other : ∀ entries, webhooks ≠ .object entries) :
    flaws webhooks = [.notAMap] := by
  cases webhooks with
  | null => exact absurd rfl present
  | object entries => exact absurd rfl (other entries)
  | _ => rfl

theorem flawed_of_mem_entryFlaws (listed : (webhook, entry) ∈ entries) (reported : flaw ∈ entryFlaws webhook entry) :
    Flawed (.object entries) flaw := by
  by_cases object : ∃ fields, entry = .object fields
  · obtain ⟨fields, rfl⟩ := object
    obtain ⟨without, rfl⟩ | ⟨method, value, given, known, reported⟩ := mem_entryFlaws_iff.mp reported
    · exact .noMethods listed without
    obtain ⟨other, rfl⟩ | ⟨operation, rfl, body, responses, rfl⟩ := operationFlaw_eq_some_iff.mp reported
    · exact .methodNotAnObject listed given known other
    · exact .emptyOperation ⟨entries, fields, rfl, listed, given, known⟩ body responses
  · rw [entryFlaws_of_other (not_exists.mp object), List.mem_singleton] at reported
    exact reported ▸ .entryNotAnObject listed (not_exists.mp object)

/-- A problem is reported when the value has it. -/
theorem mem_flaws_iff : flaw ∈ flaws webhooks ↔ Flawed webhooks flaw := by
  constructor
  · intro reported
    by_cases absent : webhooks = .null
    · exact absurd (absent ▸ reported) List.not_mem_nil
    by_cases object : ∃ entries, webhooks = .object entries
    · obtain ⟨entries, rfl⟩ := object
      obtain ⟨webhook, entry, listed, reported⟩ := mem_flaws_object_iff.mp reported
      exact flawed_of_mem_entryFlaws listed reported
    · rw [flaws_of_other absent (not_exists.mp object), List.mem_singleton] at reported
      exact reported ▸ .notAMap absent (not_exists.mp object)
  · intro flawed
    cases flawed with
    | notAMap present other => exact flaws_of_other present other ▸ List.mem_singleton_self _
    | entryNotAnObject listed other =>
      exact mem_flaws_object_iff.mpr ⟨_, _, listed, entryFlaws_of_other other ▸ List.mem_singleton_self _⟩
    | noMethods listed without =>
      exact mem_flaws_object_iff.mpr ⟨_, _, listed, mem_entryFlaws_iff.mpr (Or.inl ⟨without, rfl⟩)⟩
    | methodNotAnObject listed given known other =>
      exact mem_flaws_object_iff.mpr ⟨_, _, listed, mem_entryFlaws_iff.mpr (Or.inr ⟨_, _, given, known,
        operationFlaw_eq_some_iff.mpr (Or.inl ⟨other, rfl⟩)⟩)⟩
    | emptyOperation lists body responses =>
      obtain ⟨entries, fields, rfl, listed, given, known⟩ := lists
      exact mem_flaws_object_iff.mpr ⟨_, _, listed, mem_entryFlaws_iff.mpr (Or.inr ⟨_, _, given, known,
        operationFlaw_eq_some_iff.mpr (Or.inr ⟨_, rfl, body, responses, rfl⟩)⟩)⟩

/-- The definitions have one that is made from the method of the webhook. -/
def Makes (table : Table Schema) (webhook method : String) : Prop :=
  ∃ entry ∈ table, entry.2.source? = some (webhook, method)

theorem makes_definitions_iff {names : NameAllocator} :
    Makes (definitions webhooks document names).1 webhook method ↔
      ∃ operation, Lists webhooks webhook method operation := by
  have sources : some (webhook, method) ∈ (definitions webhooks document names).1.map (·.2.source?) ↔
      (webhook, method) ∈ pairs webhooks := by
    rw [source?_definitions, List.mem_map_of_injective (Option.some_injective _)]
  rw [← mem_pairs_iff, ← sources, List.mem_map, Makes]

theorem mem_methodKeys_iff : (webhook, method) ∈ methodKeys webhooks ↔ ∃ entries fields value,
    webhooks = .object entries ∧ (webhook, .object fields) ∈ entries ∧ (method, value) ∈ fields ∧ method ∈ methods := by
  constructor
  · intro member
    cases webhooks with
    | object entries =>
      obtain ⟨⟨name, entry⟩, listed, inside⟩ := List.mem_flatMap.mp member
      cases entry with
      | object fields =>
        obtain ⟨⟨key, value⟩, given, same⟩ := List.mem_map.mp inside
        obtain ⟨given, known⟩ := List.mem_filter.mp given
        cases same
        exact ⟨entries, fields, value, rfl, listed, given, of_decide_eq_true known⟩
      | _ => cases inside
    | _ => cases member
  · rintro ⟨entries, fields, value, rfl, listed, given, known⟩
    refine List.mem_flatMap.mpr ⟨_, listed, List.mem_map.mpr ⟨_, List.mem_filter.mpr ⟨given, ?_⟩, rfl⟩⟩
    exact decide_eq_true known

/-- When no method has a value other than an object, every method key stands for an operation. -/
theorem pairs_eq_methodKeys (sound : ∀ webhook method, ¬ Flawed webhooks (.methodNotAnObject webhook method)) :
    pairs webhooks = methodKeys webhooks := by
  cases webhooks with
  | object entries =>
    refine List.flatMap_congr fun ⟨webhook, entry⟩ listed => ?_
    cases entry with
    | object fields =>
      refine congrArg (List.map _) (List.filter_congr fun ⟨method, value⟩ given => ?_)
      refine decide_eq_decide.mpr ⟨And.left, fun known => ⟨known, ?_⟩⟩
      by_contra other
      refine sound webhook method (.methodNotAnObject listed given known fun operation same => other ?_)
      rw [same]
      rfl
    | _ => rfl
  | _ => rfl

theorem eq_of_method_mem (distinct : (Json.object entries).KeysDistinct) {fields' : Table Json} {value' : Json}
    (listed : (webhook, .object fields) ∈ entries) (given : (method, value) ∈ fields)
    (listed' : (webhook, .object fields') ∈ entries) (given' : (method, value') ∈ fields') : value = value' := by
  obtain rfl := Json.object.inj (distinct.eq_of_mem listed listed')
  exact (distinct.of_mem listed).eq_of_mem given given'

/-- A method key has an operation, or its value is reported. -/
theorem xor_lists_methodNotAnObject (distinct : webhooks.KeysDistinct) (key : (webhook, method) ∈ methodKeys webhooks) :
    Xor (∃ operation, Lists webhooks webhook method operation) (Flawed webhooks (.methodNotAnObject webhook method)) := by
  obtain ⟨entries, fields, value, rfl, listed, given, known⟩ := mem_methodKeys_iff.mp key
  by_cases object : ∃ operation, value = .object operation
  · obtain ⟨operation, rfl⟩ := object
    refine Or.inl ⟨⟨operation, entries, fields, rfl, listed, given, known⟩, fun flawed => ?_⟩
    cases flawed with
    | methodNotAnObject listed' given' known other =>
      exact other operation (eq_of_method_mem distinct listed' given' listed given)
  · refine Or.inr ⟨.methodNotAnObject listed given known (not_exists.mp object), ?_⟩
    rintro ⟨operation, _, fields', same, listed', given', -⟩
    obtain rfl := Json.object.inj same
    exact object ⟨operation, eq_of_method_mem distinct listed given listed' given'⟩

/-- A webhook that is reported as a whole lists no operation. -/
theorem not_lists_of_flawed (distinct : webhooks.KeysDistinct) {operation : Table Json}
    (flawed : Flawed webhooks (.entryNotAnObject webhook) ∨ Flawed webhooks (.noMethods webhook)) :
    ¬ Lists webhooks webhook method operation := by
  rintro ⟨entries, fields, rfl, listed, given, known⟩
  rcases flawed with flawed | flawed
  · cases flawed with
    | entryNotAnObject listed' other => exact other fields (distinct.eq_of_mem listed' listed)
  · cases flawed with
    | noMethods listed' without =>
      obtain rfl := Json.object.inj (distinct.eq_of_mem listed' listed)
      exact without _ given known

/-- A webhook without problems lists an operation. -/
theorem exists_lists (sound : ∀ flaw, ¬ Flawed (.object entries) flaw) (listed : (webhook, entry) ∈ entries) :
    ∃ method operation, Lists (.object entries) webhook method operation := by
  by_cases object : ∃ fields, entry = .object fields
  · obtain ⟨fields, rfl⟩ := object
    by_cases without : ∀ field ∈ fields, field.1 ∉ methods
    · exact absurd (.noMethods listed without) (sound _)
    push Not at without
    obtain ⟨⟨method, value⟩, given, known⟩ := without
    by_cases inner : ∃ operation, value = .object operation
    · obtain ⟨operation, rfl⟩ := inner
      exact ⟨method, operation, entries, fields, rfl, listed, given, known⟩
    · exact absurd (.methodNotAnObject listed given known (not_exists.mp inner)) (sound _)
  · exact absurd (.entryNotAnObject listed (not_exists.mp object)) (sound _)

/-- Whatever yields no definition is reported: a method key when its value is no object, and only then; an entry when it is
no object or has no method. What is reported of an operation leaves it its definition. Without a problem, every method key
has its definition, and every webhook has one. -/
theorem flaws_account (distinct : webhooks.KeysDistinct) (document : Json) (names : NameAllocator) :
    let table := (definitions webhooks document names).1
    (∀ key ∈ methodKeys webhooks,
      Xor (Makes table key.1 key.2) (.methodNotAnObject key.1 key.2 ∈ flaws webhooks)) ∧
    (∀ webhook method, Makes table webhook method ∨ .methodNotAnObject webhook method ∈ flaws webhooks →
      (webhook, method) ∈ methodKeys webhooks) ∧
    (∀ entries, webhooks = .object entries → ∀ webhook entry, (webhook, entry) ∈ entries →
      (.entryNotAnObject webhook ∈ flaws webhooks ↔ ∀ fields, entry ≠ .object fields) ∧
      (.noMethods webhook ∈ flaws webhooks ↔ ∃ fields, entry = .object fields ∧ ∀ field ∈ fields, field.1 ∉ methods)) ∧
    (∀ webhook, .entryNotAnObject webhook ∈ flaws webhooks ∨ .noMethods webhook ∈ flaws webhooks →
      ∀ method, ¬ Makes table webhook method) ∧
    (∀ webhook method, .emptyOperation webhook method ∈ flaws webhooks ↔ Makes table webhook method ∧
      ∃ operation, Lists webhooks webhook method operation ∧ "requestBody" ∉ Table.keys operation ∧
        "responses" ∉ Table.keys operation) ∧
    (∀ entries, webhooks = .object entries → flaws webhooks = [] →
      table.map (·.2.source?) = (methodKeys webhooks).map some ∧
      ∀ webhook ∈ Table.keys entries, ∃ method, Makes table webhook method) := by
  intro table
  simp only [makes_definitions_iff, mem_flaws_iff, table]
  refine ⟨fun key member => xor_lists_methodNotAnObject distinct member, ?_, ?_, ?_, ?_, ?_⟩
  · rintro webhook method (⟨operation, entries, fields, rfl, listed, given, known⟩ | flawed)
    · exact mem_methodKeys_iff.mpr ⟨entries, fields, _, rfl, listed, given, known⟩
    · cases flawed with
      | methodNotAnObject listed given known other =>
        exact mem_methodKeys_iff.mpr ⟨_, _, _, rfl, listed, given, known⟩
  · rintro entries rfl webhook entry listed
    constructor
    · refine ⟨fun flawed => ?_, .entryNotAnObject listed⟩
      cases flawed with
      | entryNotAnObject again other => exact distinct.eq_of_mem again listed ▸ other
    · constructor
      · intro flawed
        cases flawed with
        | noMethods again without => exact ⟨_, distinct.eq_of_mem listed again, without⟩
      · rintro ⟨fields, rfl, without⟩
        exact .noMethods listed without
  · rintro webhook flawed method ⟨operation, lists⟩
    exact not_lists_of_flawed distinct flawed lists
  · intro webhook method
    constructor
    · intro flawed
      cases flawed with
      | emptyOperation lists body responses => exact ⟨⟨_, lists⟩, _, lists, body, responses⟩
    · rintro ⟨-, operation, lists, body, responses⟩
      exact .emptyOperation lists body responses
  · rintro entries rfl valid
    have sound (flaw : Flaw) : ¬ Flawed (.object entries) flaw := fun flawed =>
      absurd (mem_flaws_iff.mpr flawed) (valid ▸ List.not_mem_nil)
    refine ⟨?_, fun webhook named => ?_⟩
    · rw [source?_definitions, pairs_eq_methodKeys fun webhook method => sound _]
    · obtain ⟨⟨_, entry⟩, listed, rfl⟩ := List.mem_map.mp named
      exact exists_lists sound listed

/-- A value with every problem that an entry can have, and one with none. -/
theorem flaws_account_pet :
    let flawed := Json.object [("shelter", .null), ("vet", .object [("summary", .string "get")]),
      ("pet", .object [("get", .bool true), ("post", .object [])])]
    let sound := Json.object [("pet", .object [("post", .object [("responses", .null)])])]
    let table := fun webhooks => (definitions webhooks .null {}).1
    flawed.KeysDistinct ∧ sound.KeysDistinct ∧
      flaws flawed = [.entryNotAnObject "shelter", .noMethods "vet", .methodNotAnObject "pet" "get",
        .emptyOperation "pet" "post"] ∧
      ¬ Makes (table flawed) "pet" "get" ∧ Makes (table flawed) "pet" "post" ∧
      (table sound).map (·.2.source?) = [some ("pet", "post")] := by
  intro flawed sound table
  have distinct : flawed.KeysDistinct ∧ sound.KeysDistinct := by
    simp [flawed, sound, Json.KeysDistinct, Json.FieldsKeysDistinct, Table.Distinct]
  have reported : flaws flawed = [.entryNotAnObject "shelter", .noMethods "vet", .methodNotAnObject "pet" "get",
      .emptyOperation "pet" "post"] := by decide +kernel
  obtain ⟨keys, -, -, -, operations, -⟩ := flaws_account distinct.1 .null {}
  obtain ⟨-, -, -, -, -, valid⟩ := flaws_account distinct.2 .null {}
  have without : ¬ Makes (table flawed) "pet" "get" :=
    (keys ("pet", "get") (by decide +kernel)).elim (fun both => absurd (by simp [reported]) both.2) (·.2)
  exact ⟨distinct.1, distinct.2, reported, without, ((operations "pet" "post").mp (by simp [reported])).1,
    (valid _ rfl (by decide +kernel)).1⟩

end Webhook

end Schemata
