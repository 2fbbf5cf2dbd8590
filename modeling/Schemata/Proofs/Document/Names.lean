import Schemata.Proofs.Document.Report
import Schemata.Proofs.Document.Resolution

namespace Schemata

namespace Document

/-- The root is named after its title, unless it has none that says something. -/
def RootBase (raw : Json) (base : String) : Prop :=
  (base ≠ "" ∧ raw.get? "title" = some (.string base)) ∨
    (base = "Root" ∧ ∀ title, title ≠ "" → raw.get? "title" ≠ some (.string title))

theorem rootBase_rootTitle (raw : Json) : RootBase raw (rootTitle raw) := by
  cases titled : (raw.get? "title").bind Json.string? with
  | none =>
    rw [rootTitle, titled]
    refine Or.inr ⟨rfl, fun title _ given => ?_⟩
    rw [given] at titled
    cases titled
  | some title =>
    obtain ⟨value, given, text⟩ := Option.bind_eq_some_iff.mp titled
    obtain rfl := Json.string?_eq_some_iff.mp text
    rw [rootTitle, titled]
    by_cases empty : title = ""
    · subst empty
      refine Or.inr ⟨rfl, fun other nonempty same => nonempty ?_⟩
      exact (Json.string.inj (Option.some.inj (given.symm.trans same))).symm
    · simp only [String.isEmpty_iff, empty, if_false]
      exact Or.inl ⟨empty, given⟩

/-- The root of a plain schema stands before the named schemas, under the first free form of its name. -/
theorem definitions_ofJson (raw : Json) :
    let document := ofJson raw
    (∀ root, document.version = .jsonSchema → rootSchema? raw = some root → ∃ base name, RootBase raw base ∧
      NameAllocator.FirstFree (Table.keys (named raw)) base name ∧ document.definitions = (name, root) :: named raw) ∧
    ((document.version = .jsonSchema → rootSchema? raw = none) → document.definitions = named raw) := by
  change (∀ root, SpecVersion.detect raw = .jsonSchema → _) ∧
    ((SpecVersion.detect raw = .jsonSchema → _) → definitionsOf raw _ = _)
  refine ⟨fun root plain kept => ⟨rootTitle raw, _, rootBase_rootTitle raw, NameAllocator.freeName_firstFree _ _, ?_⟩,
    fun without => ?_⟩
  · change definitionsOf raw _ = _
    rw [definitionsOf, if_pos plain, kept]
    rfl
  · by_cases plain : SpecVersion.detect raw = .jsonSchema
    · rw [definitionsOf, if_pos plain, without plain]
    · rw [definitionsOf, if_neg plain]

end Document

namespace Webhook

/-- The webhook and the method of every operation that becomes a definition, in source order. -/
def pairs : Json → List (String × String)
  | .object entries => entries.flatMap fun (webhook, entry) =>
    match entry with
    | .object fields =>
      (fields.filter fun field => field.1 ∈ methods ∧ field.2.object?.isSome).map fun field => (webhook, field.1)
    | _ => []
  | _ => []

theorem operations_pairs (webhooks : Json) :
    (operations webhooks).map (fun operation => (operation.1, operation.2.1)) = pairs webhooks := by
  have inside (webhook : String) (fields : Table Json) :
      (entryOperations webhook (.object fields)).map (fun operation => (operation.1, operation.2.1)) =
        (fields.filter fun field => field.1 ∈ methods ∧ field.2.object?.isSome).map fun field =>
          (webhook, field.1) := by
    rw [entryOperations, Json.object?, Option.getD_some]
    induction fields with
    | nil => rfl
    | cons field rest ih =>
      obtain ⟨method, operation⟩ := field
      by_cases known : method ∈ methods
      · cases operation <;> simp_all [Json.object?]
      · simp_all
  cases webhooks with
  | object entries =>
    rw [operations, pairs, Json.object?, Option.getD_some, List.map_flatMap]
    refine List.flatMap_congr fun entry _ => ?_
    obtain ⟨webhook, value⟩ := entry
    cases value with
    | object fields => exact inside webhook fields
    | _ => rfl
  | _ => rfl

/-- The definitions of the webhooks have the names that are allocated for their pairs, in order. -/
theorem allocateAll_pairs (webhooks document : Json) (names : NameAllocator) :
    names.allocateAll ((pairs webhooks).map fun pair => baseName pair.1 pair.2) =
      (Table.keys (definitions webhooks document names).1, (definitions webhooks document names).2) := by
  rw [← operations_pairs, List.map_map]
  exact keys_define document names (operations webhooks)

/-- The definition of an operation carries no block. -/
theorem nested_definition (document : Json) (webhook method : String) (operation : Table Json) :
    (definition document webhook method operation).nested = [] := by
  have own : Table.keys (textEntry operation "summary" ++ textEntry operation "description" ++
      [("x-webhook", .string webhook), ("x-webhook-method", .string method)]) ⊆
        ["summary", "description", "x-webhook", "x-webhook-method"] := by
    obtain ⟨summary, first⟩ := textEntry_sublist operation "summary"
    obtain ⟨description, second⟩ := textEntry_sublist operation "description"
    exact (((first.append second).append_right _).map _).subset
  have bare : (definition document webhook method operation).carried = [] := by
    have absent (keyword : String) (block : keyword ∈ ["$defs", "definitions"]) :
        (textEntry operation "summary" ++ textEntry operation "description" ++
          [("x-webhook", Json.string webhook), ("x-webhook-method", .string method)]).lookup keyword = none := by
      refine Table.lookup_eq_none fun present => ?_
      have listed := own present
      rcases List.mem_pair.mp block with rfl | rfl <;> revert listed <;> decide
    refine List.flatMap_eq_nil_iff.mpr fun keyword block => ?_
    simp only [absent keyword block]
  rw [Schema.nested_eq, bare, List.flatMap_nil, List.append_nil]

theorem nested_define (document : Json) (names : NameAllocator) (operations : List Operation) :
    (define document names operations).1.flatMap (fun entry => entry.2.nested) = [] := by
  induction operations generalizing names with
  | nil => rfl
  | cons operation rest ih =>
    obtain ⟨webhook, method, operation⟩ := operation
    rw [define, List.flatMap_cons, nested_definition, ih, List.append_nil]

end Webhook

namespace SchemaSet

variable {document : Document} {settings : NormalizeSettings} {version : SpecVersion} {hoisted : Bool}
  {webhooks outcome : Outcome}

/-- What is reported of the webhooks is what became of them before. -/
theorem webhooks_of_report {passes : List Pass} {progress : Progress}
    (recorded : (.webhooks, outcome) ∈ (passes.foldl (runPass settings version hoisted webhooks) progress).passes) :
    (.webhooks, outcome) ∈ progress.passes ∨ outcome = webhooks := by
  induction passes generalizing progress with
  | nil => exact Or.inl recorded
  | cons pass rest ih =>
    refine (ih recorded).elim (fun first => ?_) Or.inr
    unfold runPass at first
    split at first
    · rename_i given
      rcases List.mem_append.mp first with old | new
      · exact Or.inl old
      · exact Or.inr (Prod.mk.inj (List.mem_singleton.mp new)).2
    all_goals
      rename_i given
      rcases List.mem_append.mp first with old | new
      · exact Or.inl old
      · obtain ⟨rfl, -⟩ := Prod.mk.inj (List.mem_singleton.mp new)
        cases given

theorem webhooks_reported (document : Document) (settings : NormalizeSettings) :
    (.webhooks, outcome) ∈ (ofDocument document settings).passes ↔ outcome = (webhookDefinitions document settings).2 := by
  obtain ⟨-, passes⟩ := ofDocument_definitions document settings
  rw [passes]
  refine ⟨fun recorded => (webhooks_of_report recorded).resolve_left nofun, ?_⟩
  rintro rfl
  exact mem_run_webhooks (by decide)

/-- The webhooks join when their pass is applied, each under a name of its own. -/
theorem webhookDefinitions_named (document : Document) (settings : NormalizeSettings) :
    let added := (webhookDefinitions document settings).1
    added.flatMap (fun entry => entry.2.nested) = [] ∧
      ((∃ changed, (webhookDefinitions document settings).2 = .applied changed) →
        NameAllocator.Named (Table.keys document.definitions)
          ((Webhook.pairs document.webhooks).map fun pair => Webhook.baseName pair.1 pair.2)
          (Table.keys added)) ∧
      ((∀ changed, (webhookDefinitions document settings).2 ≠ .applied changed) → added = []) := by
  unfold webhookDefinitions
  split
  · rename_i outcome skipped
    refine ⟨rfl, fun applied => ?_, fun _ => rfl⟩
    obtain ⟨changed, same⟩ := applied
    rcases changed_of_skips skipped with rfl | rfl <;> cases same
  · refine ⟨Webhook.nested_define _ _ _, fun _ => ?_, fun other => absurd rfl (other _)⟩
    have given := NameAllocator.allocateAll_named (NameAllocator.reserving (Table.keys document.definitions))
      ((Webhook.pairs document.webhooks).map fun pair => Webhook.baseName pair.1 pair.2)
    rw [Webhook.allocateAll_pairs _ document.raw] at given
    exact given

theorem keys_ofDocument_eq (document : Document) (settings : NormalizeSettings) :
    Table.keys (ofDocument document settings).definitions =
      Table.keys (hoistDefinitions (document.definitions ++ (webhookDefinitions document settings).1)).1 := by
  obtain ⟨definitions, -⟩ := ofDocument_definitions document settings
  rw [definitions, run_definitions, Table.keys_mapValues]

/-- No name of the normal form occurs twice. First stand the names of the document, the root of a plain schema before
the others; then, if their pass was applied, those of the webhooks, one for each pair of a webhook and a method; then
those of the entries of blocks, at any depth. -/
theorem keys_ofDocument (parsed : document.Parsed) (settings : NormalizeSettings) :
    let set := ofDocument document settings
    let own := Table.keys document.definitions
    Table.Distinct set.definitions ∧
    (∃ webhooks blocks, Table.keys set.definitions = own ++ webhooks ++ blocks ∧
      ((∃ changed, (.webhooks, .applied changed) ∈ set.passes) → NameAllocator.Named own
        ((Webhook.pairs document.webhooks).map fun pair => Webhook.baseName pair.1 pair.2) webhooks) ∧
      ((∀ changed, (.webhooks, .applied changed) ∉ set.passes) → webhooks = []) ∧
      NameAllocator.Named (own ++ webhooks) (Table.keys (document.definitions.flatMap fun entry => entry.2.nested))
        blocks) ∧
    (∀ root, document.version = .jsonSchema → Document.rootSchema? document.raw = some root →
      ∃ base name, Document.RootBase document.raw base ∧
        NameAllocator.FirstFree (Table.keys (Document.named document.raw)) base name ∧
        document.definitions = (name, root) :: Document.named document.raw) ∧
    ((document.version = .jsonSchema → Document.rootSchema? document.raw = none) →
      document.definitions = Document.named document.raw) := by
  intro set own
  have distinct : Table.Distinct set.definitions := by
    rw [Table.Distinct, keys_ofDocument_eq]
    exact distinct_hoistDefinitions (distinct_webhookDefinitions parsed settings)
  obtain ⟨flat, joined, absent⟩ := webhookDefinitions_named document settings
  have keys := keys_ofDocument_eq document settings
  rw [keys_hoistDefinitions, Table.keys_append] at keys
  refine ⟨distinct, ⟨_, _, keys, ?_, ?_, ?_⟩, ?_⟩
  · rintro ⟨changed, recorded⟩
    exact joined ⟨changed, ((webhooks_reported document settings).mp recorded).symm⟩
  · intro skipped
    rw [absent fun changed same => skipped changed ((webhooks_reported document settings).mpr same.symm)]
    rfl
  · rw [← Table.keys_append, List.flatMap_append, flat, List.append_nil]
    exact NameAllocator.allocateAll_named _ _
  · obtain ⟨raw, -, rfl⟩ := parsed
    exact Document.definitions_ofJson raw

/-- A title that a schema has already, a webhook, and a block in a block that holds the same name once more. -/
theorem keys_ofDocument_pet :
    let document := Document.ofJson (.object [("title", .string "Pet"), ("type", .string "object"),
      ("definitions", .object [("Pet", .object [("$defs", .object [("Tag", .object [("definitions", .object
        [("Pet", .bool true)])])])])]),
      ("webhooks", .object [("new", .object [("post", .object [])])])])
    document.Parsed ∧ Table.Distinct (ofDocument document {}).definitions ∧
      Table.keys (ofDocument document {}).definitions = ["Pet2", "Pet", "NewPostWebhook", "Tag", "Pet3"] := by
  intro document
  have parsed : document.Parsed := by
    refine ⟨_, ?_, rfl⟩
    simp [Json.KeysDistinct, Json.FieldsKeysDistinct, Table.Distinct]
  have distinct := (keys_ofDocument parsed {}).1
  exact ⟨parsed, distinct, by decide +kernel⟩

end SchemaSet

end Schemata
