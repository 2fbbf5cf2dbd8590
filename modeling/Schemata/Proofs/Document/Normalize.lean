import Schemata.Document.Load
import Schemata.Proofs.Pass.Hoist
import Schemata.Proofs.Pass.NormalForm

namespace Schemata

namespace Schema

variable {reach : Reach} {step : Node → Noted Node} {schema : Schema}

theorem Lowering.thinned_mapNodes (lowering : Lowering step)
    (keeps : ∀ n, (Schema.node n).Thinned (.node (step n).value)) (schema : Schema) :
    schema.Thinned (mapNodes reach step schema).value := by
  cases schema with
  | node n =>
    rw [lowering.mapNodes_value]
    have extra : ((step n).value.mapReach reach fun s => (mapNodes reach step s).value).extra =
        (step n).value.extra := by
      cases reach <;> rfl
    have kept := keeps n
    generalize same : Schema.node (step n).value = after at kept
    cases kept with
    | same =>
      exact thinned_of_extra (extra.trans (congrArg NodeOf.extra (Schema.node.inj same)))
    | node kept less =>
      rw [← Schema.node.inj same] at less
      exact .node kept (extra.trans less)
  | bool value =>
    rw [mapNodes_bool]
    exact .same _
  | malformed value =>
    rw [mapNodes_malformed]
    exact .same _

end Schema

namespace Pass

variable {pass : Pass} {transform : Schema → Noted Schema}

/-- A pass adds nothing to what the root carries along. -/
theorem thinned_transform (given : pass.transform? = some transform) (schema : Schema) :
    schema.Thinned (transform schema).value := by
  cases pass with
  | references =>
    cases given
    exact Schema.thinned_redirect [] schema
  | const =>
    cases given
    refine Schema.lowering_completeConst.thinned_mapNodes (fun n => Schema.thinned_of_extra ?_) schema
    cases present : n.const with
    | none => rw [NodeOf.completeConst_of_none present]
    | some value => rw [NodeOf.completeConst_value present]
  | tuples =>
    cases given
    refine Schema.lowering_positionalItems.thinned_mapNodes (fun n => Schema.thinned_of_extra ?_) schema
    cases changed : n.positionalItems? with
    | none => rfl
    | some n' =>
      obtain ⟨schemas, -, -, rfl⟩ := NodeOf.positionalItems_cases changed
      rfl
  | conditionals =>
    cases given
    refine Schema.lowering_unconditional.thinned_mapNodes (fun n => Schema.thinned_of_extra ?_) schema
    cases changed : n.unconditional? with
    | none => rfl
    | some n' =>
      obtain ⟨condition, -, -, rfl⟩ := NodeOf.unconditional_cases changed
      rfl
  | nullable =>
    cases given
    refine Schema.lowering_resolveNullable.thinned_mapNodes (fun n => ?_) schema
    cases changed : n.resolveNullable? with
    | none => exact .same _
    | some n' =>
      rcases NodeOf.resolveNullable_cases changed with ⟨-, rfl⟩ | ⟨-, ⟨types, -, rfl⟩ | ⟨-, ⟨-, rfl⟩ | ⟨-, rfl⟩⟩⟩
      · exact Schema.thinned_of_extra rfl
      · exact Schema.thinned_of_extra rfl
      · exact .node onlyDescribes rfl
      · exact .node onlyDescribes rfl
  | webhooks => cases given

end Pass

namespace SchemaSet

variable {transform : Schema → Noted Schema} {definitions : Table Schema}

theorem transformAll_value (transform : Schema → Noted Schema) (definitions : Table Schema) :
    (transformAll transform definitions).value =
      Table.mapValues (fun schema => (transform schema).value) definitions := by
  induction definitions with
  | nil => rfl
  | cons entry rest ih =>
    simp only [transformAll, Noted.bind_value, Noted.pure_value, ih, Table.mapValues, List.map_cons]

theorem transformAll_changed (transform : Schema → Noted Schema) (definitions : Table Schema) :
    (transformAll transform definitions).changed = definitions.any fun entry => (transform entry.2).changed := by
  induction definitions with
  | nil => rfl
  | cons entry rest ih =>
    simp only [transformAll, Noted.bind_changed, Noted.pure_changed, ih, Bool.or_false, List.any_cons]

theorem transformAll_of_same
    (same : ∀ entry ∈ definitions, (transform entry.2).value = entry.2 ∧ (transform entry.2).changed = false) :
    (transformAll transform definitions).value = definitions ∧
      (transformAll transform definitions).changed = false := by
  rw [transformAll_value, transformAll_changed]
  constructor
  · exact Table.mapValues_eq_self_iff.mpr fun entry member => (same entry member).1
  · rw [List.any_eq_false]
    intro entry member
    rw [(same entry member).2]
    exact Bool.false_ne_true

section

variable {settings : NormalizeSettings} {version : SpecVersion} {hoisted : Bool} {webhooks : Outcome}
  {progress : Progress} {pass : Pass} {finished remaining : List Pass}

/-- The pass transforms schemas, and is not skipped. -/
def Runs (settings : NormalizeSettings) (version : SpecVersion) (pass : Pass) (transform : Schema → Noted Schema) :
    Prop :=
  settings.skips version pass = none ∧ pass.transform? = some transform

theorem runPass_of_runs (runs : Runs settings version pass transform) :
    runPass settings version hoisted webhooks progress pass =
      ⟨(transformAll transform progress.definitions).value,
        progress.passes ++ [(pass, .applied
          ((pass == .references && hoisted) || (transformAll transform progress.definitions).changed))],
        progress.constValues ++ (transformAll transform progress.definitions).found⟩ := by
  simp only [runPass, runs.1, runs.2]

/-- A pass that does not run is only recorded: as skipped, or with what became of the webhooks. -/
theorem runPass_of_idle (hoisted : Bool) (webhooks : Outcome) (progress : Progress)
    (idle : ∀ transform, ¬ Runs settings version pass transform) :
    ∃ outcome, runPass settings version hoisted webhooks progress pass =
        { progress with passes := progress.passes ++ [(pass, outcome)] } ∧
      (outcome = webhooks ∧ pass.transform? = none ∨ settings.skips version pass = some outcome) := by
  unfold runPass
  cases skipped : settings.skips version pass with
  | none =>
    cases given : pass.transform? with
    | none => exact ⟨webhooks, rfl, Or.inl ⟨rfl, rfl⟩⟩
    | some transform => exact absurd ⟨skipped, given⟩ (idle transform)
  | some outcome =>
    cases given : pass.transform? with
    | none => exact ⟨webhooks, rfl, Or.inl ⟨rfl, rfl⟩⟩
    | some transform => exact ⟨outcome, rfl, Or.inr rfl⟩

theorem changed_of_skips {outcome : Outcome} (skipped : settings.skips version pass = some outcome) :
    outcome = .disabled ∨ outcome = .not31 := by
  unfold NormalizeSettings.skips at skipped
  split at skipped
  · exact Or.inl (Option.some.inj skipped).symm
  · split at skipped
    · exact Or.inr (Option.some.inj skipped).symm
    · cases skipped

/-- What holds after some passes are finished: definitions are proper and have no blocks, the passes that ran find
nothing to do, and only they are on record as having run. -/
structure Progress.Normal (settings : NormalizeSettings) (version : SpecVersion) (finished : List Pass)
    (progress : Progress) : Prop where
  proper : ∀ entry ∈ progress.definitions, entry.2.Proper
  blockless : ∀ entry ∈ progress.definitions, entry.2.Blockless
  normal : ∀ pass ∈ finished, ∀ transform, Runs settings version pass transform →
    ∀ entry ∈ progress.definitions, pass.NormalForm entry.2
  recorded : ∀ pass changed transform, (pass, Outcome.applied changed) ∈ progress.passes →
    pass.transform? = some transform → Runs settings version pass transform

theorem Progress.Normal.runPass (before : progress.Normal settings version finished) (hoisted : Bool)
    (webhooks : Outcome) (spared : ∀ earlier ∈ finished, earlier.SparedBy pass) :
    (SchemaSet.runPass settings version hoisted webhooks progress pass).Normal settings version
      (finished ++ [pass]) := by
  by_cases runs : ∃ transform, Runs settings version pass transform
  · obtain ⟨transform, runs⟩ := runs
    have thinned := Pass.thinned_transform runs.2
    rw [runPass_of_runs runs]
    refine ⟨?_, ?_, ?_, ?_⟩
    · rw [transformAll_value, Table.mapValues, List.forall_mem_map]
      exact fun entry member => (thinned entry.2).proper (before.proper entry member)
    · rw [transformAll_value, Table.mapValues, List.forall_mem_map]
      exact fun entry member => (thinned entry.2).blockless (before.blockless entry member)
    · rw [transformAll_value, Table.mapValues]
      intro earlier listed other again
      rw [List.forall_mem_map]
      intro entry member
      rcases List.mem_append.mp listed with done | now
      · exact spared earlier done transform runs.2 entry.2 (before.normal earlier done other again entry member)
      · obtain rfl := List.mem_singleton.mp now
        exact Pass.normalForm_transform runs.2 entry.2
    · intro other changed transform' recorded given
      rcases List.mem_append.mp recorded with old | new
      · exact before.recorded other changed transform' old given
      · obtain ⟨rfl, -⟩ := Prod.mk.inj (List.mem_singleton.mp new)
        exact ⟨runs.1, given⟩
  · obtain ⟨outcome, same, cause⟩ := runPass_of_idle hoisted webhooks progress (not_exists.mp runs)
    rw [same]
    refine ⟨before.proper, before.blockless, ?_, ?_⟩
    · intro earlier listed other again
      rcases List.mem_append.mp listed with done | now
      · exact before.normal earlier done other again
      · obtain rfl := List.mem_singleton.mp now
        exact absurd ⟨other, again⟩ runs
    · intro other changed transform' recorded given
      rcases List.mem_append.mp recorded with old | new
      · exact before.recorded other changed transform' old given
      · obtain ⟨rfl, rfl⟩ := Prod.mk.inj (List.mem_singleton.mp new)
        rcases cause with ⟨-, none⟩ | skipped
        · cases none.symm.trans given
        · rcases changed_of_skips skipped with impossible | impossible <;> cases impossible

theorem Progress.Normal.run (before : progress.Normal settings version finished) (remaining : List Pass)
    (spared : (finished ++ remaining).Pairwise Pass.SparedBy) :
    (remaining.foldl (SchemaSet.runPass settings version hoisted webhooks) progress).Normal settings version
      (finished ++ remaining) := by
  induction remaining generalizing progress finished with
  | nil => rwa [List.append_nil]
  | cons pass rest ih =>
    have first : ∀ earlier ∈ finished, earlier.SparedBy pass := fun earlier listed =>
      (List.pairwise_append.mp spared).2.2 earlier listed pass List.mem_cons_self
    have next := before.runPass hoisted webhooks first
    rw [List.append_cons] at spared ⊢
    exact ih next spared

/-- A pass that finds all definitions in its normal form leaves them, and reports no change. -/
theorem runPass_of_normal (progress : Progress) (still : hoisted = false) (quiet : webhooks.changed = false)
    (normal : ∀ transform, Runs settings version pass transform → ∀ entry ∈ progress.definitions,
      pass.NormalForm entry.2) :
    (runPass settings version hoisted webhooks progress pass).definitions = progress.definitions ∧
      ∃ outcome, outcome.changed = false ∧
        (runPass settings version hoisted webhooks progress pass).passes = progress.passes ++ [(pass, outcome)] := by
  by_cases runs : ∃ transform, Runs settings version pass transform
  · obtain ⟨transform, runs⟩ := runs
    obtain ⟨same, unchanged⟩ := transformAll_of_same fun entry member =>
      (normal transform runs entry member).transform_eq runs.2
    rw [runPass_of_runs runs]
    refine ⟨same, _, ?_, rfl⟩
    rw [unchanged, still, Bool.and_false]
    rfl
  · obtain ⟨outcome, same, cause⟩ := runPass_of_idle hoisted webhooks progress (not_exists.mp runs)
    rw [same]
    refine ⟨rfl, outcome, ?_, rfl⟩
    rcases cause with ⟨rfl, -⟩ | skipped
    · exact quiet
    · rcases changed_of_skips skipped with rfl | rfl <;> rfl

theorem run_of_normal (progress : Progress) (remaining : List Pass) (still : hoisted = false)
    (quiet : webhooks.changed = false)
    (normal : ∀ pass ∈ remaining, ∀ transform, Runs settings version pass transform →
      ∀ entry ∈ progress.definitions, pass.NormalForm entry.2) :
    (remaining.foldl (runPass settings version hoisted webhooks) progress).definitions = progress.definitions ∧
      ∀ report ∈ (remaining.foldl (runPass settings version hoisted webhooks) progress).passes,
        report ∈ progress.passes ∨ report.2.changed = false := by
  induction remaining generalizing progress with
  | nil => exact ⟨rfl, fun report recorded => Or.inl recorded⟩
  | cons pass rest ih =>
    obtain ⟨first, others⟩ := List.forall_mem_cons.mp normal
    obtain ⟨same, outcome, unchanged, recorded⟩ := runPass_of_normal progress still quiet first
    obtain ⟨definitions, reports⟩ := ih (runPass settings version hoisted webhooks progress pass)
      (by rw [same]; exact others)
    refine ⟨definitions.trans same, fun report member => ?_⟩
    rcases reports report member with early | late
    · rw [recorded] at early
      rcases List.mem_append.mp early with old | new
      · exact Or.inl old
      · rw [List.mem_singleton.mp new]
        exact Or.inr unchanged
    · exact Or.inr late

end

end SchemaSet

namespace Document

/-- The document was made from a value in which no object names an entry twice. -/
def Parsed (document : Document) : Prop := ∃ raw : Json, raw.KeysDistinct ∧ document = ofJson raw

theorem keysDistinct_namedPlace {raw value : Json} (distinct : raw.KeysDistinct)
    (found : namedPlace? raw = some value) : value.KeysDistinct := by
  unfold namedPlace? at found
  rcases Option.or_eq_some_iff.mp found with first | ⟨-, last⟩
  · rcases Option.or_eq_some_iff.mp first with components | ⟨-, definitions⟩
    · exact distinct.resolve? components
    · exact distinct.get? definitions
  · exact distinct.get? last

theorem read_named {raw : Json} (distinct : raw.KeysDistinct) :
    ∀ entry ∈ named raw, ∃ value : Json, value.KeysDistinct ∧ entry.2 = Schema.ofJson value := by
  intro entry member
  cases place : (namedPlace? raw).bind Json.object? with
  | none =>
    rw [named, place] at member
    cases member
  | some fields =>
    obtain ⟨value, found, object⟩ := Option.bind_eq_some_iff.mp place
    have whole := keysDistinct_namedPlace distinct found
    rw [named, place] at member
    obtain ⟨field, listed, rfl⟩ := List.mem_map.mp member
    obtain rfl := Json.object?_eq_some_iff.mp object
    exact ⟨field.2, whole.of_mem listed, rfl⟩

theorem read_rootSchema {raw : Json} (distinct : raw.KeysDistinct) {root : Schema} (found : rootSchema? raw = some root) :
    ∃ value : Json, value.KeysDistinct ∧ root = Schema.ofJson value := by
  unfold rootSchema? at found
  split at found
  · cases found
    exact ⟨_, distinct, rfl⟩
  · dsimp only at found
    split at found
    · cases found
      exact ⟨_, distinct.sublist List.filter_sublist, rfl⟩
    · cases found
  · cases found

/-- The definitions of a document are read from values in which no object names an entry twice. -/
theorem Parsed.read {document : Document} (parsed : document.Parsed) :
    ∀ entry ∈ document.definitions, ∃ value : Json, value.KeysDistinct ∧ entry.2 = Schema.ofJson value := by
  obtain ⟨raw, distinct, rfl⟩ := parsed
  have inside := read_named distinct
  change ∀ entry ∈ definitionsOf raw _, _
  unfold definitionsOf
  split
  · split
    · rename_i root found
      exact List.forall_mem_cons.mpr ⟨read_rootSchema distinct found, inside⟩
    · exact inside
  · exact inside

theorem Parsed.proper {document : Document} (parsed : document.Parsed) :
    ∀ entry ∈ document.definitions, entry.2.Proper := by
  intro entry member
  obtain ⟨value, distinct, same⟩ := parsed.read entry member
  exact same ▸ Schema.proper_ofJson distinct

end Document

namespace Webhook

theorem textEntry_sublist (operation : Table Json) (key : String) :
    ∃ text, (textEntry operation key).Sublist [(key, .string text)] := by
  unfold textEntry
  split
  · exact ⟨_, List.Sublist.refl _⟩
  · exact ⟨"", List.nil_sublist _⟩

theorem proper_definition (document : Json) (webhook method : String) (operation : Table Json) :
    (definition document webhook method operation).Proper := by
  refine ⟨?_, fun _ => nofun⟩
  rintro _ ⟨⟩
  obtain ⟨summary, first⟩ := textEntry_sublist operation "summary"
  obtain ⟨description, second⟩ := textEntry_sublist operation "description"
  refine Json.KeysDistinct.sublist ?_ ((first.append second).append_right _)
  refine Json.keysDistinct_object.mpr ⟨?_, ?_⟩
  · change ["summary", "description", "x-webhook", "x-webhook-method"].Nodup
    decide
  · simp [Json.KeysDistinct]

theorem proper_define (document : Json) (names : NameAllocator) (operations : List Operation) :
    ∀ entry ∈ (define document names operations).1, entry.2.Proper := by
  induction operations generalizing names with
  | nil =>
    intro entry member
    cases member
  | cons operation rest ih =>
    obtain ⟨webhook, method, operation⟩ := operation
    exact List.forall_mem_cons.mpr ⟨proper_definition document webhook method operation, ih _⟩

theorem definitions_of_nil {webhooks : Json} (none : webhooks.object?.getD [] = []) (document : Json)
    (names : NameAllocator) : (definitions webhooks document names).1 = [] := by
  rw [definitions, operations, none, List.flatMap_nil, define]

end Webhook

namespace SchemaSet

variable {document : Document} {settings : NormalizeSettings}

theorem proper_webhookDefinitions (document : Document) (settings : NormalizeSettings) :
    ∀ entry ∈ (webhookDefinitions document settings).1, entry.2.Proper := by
  unfold webhookDefinitions
  split
  · intro entry member
    cases member
  · exact Webhook.proper_define document.raw _ (Webhook.operations document.webhooks)

/-- Without webhooks there is nothing to join the definitions, and the pass reports no change. -/
theorem webhookDefinitions_of_nil (none : Webhook.ofDocument document.raw = []) (settings : NormalizeSettings) :
    (webhookDefinitions document settings).1 = [] ∧ (webhookDefinitions document settings).2.changed = false := by
  have empty : document.webhooks.object?.getD [] = [] := by
    unfold Webhook.ofDocument at none
    unfold Document.webhooks
    cases found : document.raw.get? "webhooks" with
    | none => rfl
    | some value =>
      rw [found] at none
      exact none
  unfold webhookDefinitions
  split
  · rename_i outcome skipped
    rcases changed_of_skips skipped with rfl | rfl <;> exact ⟨rfl, rfl⟩
  · have nothing := Webhook.definitions_of_nil empty document.raw
      (NameAllocator.reserving (Table.keys document.definitions))
    exact ⟨nothing, by simp only [nothing, List.isEmpty_nil, Bool.not_true, Outcome.changed]⟩

/-- The normal form in steps: webhooks join, blocks are hoisted, the passes run. -/
theorem ofDocument_definitions (document : Document) (settings : NormalizeSettings) :
    let webhooks := webhookDefinitions document settings
    let hoisted := hoistDefinitions (document.definitions ++ webhooks.1)
    let progress := Pass.order.foldl (runPass settings document.version hoisted.2 webhooks.2)
      { definitions := hoisted.1 }
    (ofDocument document settings).definitions = progress.definitions ∧
      (ofDocument document settings).passes = progress.passes :=
  ⟨rfl, rfl⟩

theorem normal_ofDocument (parsed : document.Parsed) (settings : NormalizeSettings) :
    Progress.Normal settings document.version Pass.order
      ⟨(ofDocument document settings).definitions, (ofDocument document settings).passes,
        (ofDocument document settings).constValues⟩ := by
  have proper : ∀ entry ∈ document.definitions ++ (webhookDefinitions document settings).1, entry.2.Proper :=
    List.forall_mem_append.mpr ⟨parsed.proper, proper_webhookDefinitions document settings⟩
  have start : Progress.Normal settings document.version []
      { definitions := (hoistDefinitions (document.definitions ++ (webhookDefinitions document settings).1)).1 } :=
    { proper := proper_hoistDefinitions proper
      blockless := blockless_hoistDefinitions fun entry member => (proper entry member).distinct
      normal := by simp
      recorded := by simp }
  exact start.run Pass.order Pass.order_sparedBy

/-- Normalizing again changes nothing: every pass that was applied leaves the definitions as they are, there is no
block to hoist, and a document that holds the normal form and no webhooks comes out as it is, with no pass reporting
a change. -/
theorem ofDocument_fixed (parsed : document.Parsed) (settings : NormalizeSettings) :
    (∀ pass changed transform, (pass, Outcome.applied changed) ∈ (ofDocument document settings).passes →
      pass.transform? = some transform → ∀ entry ∈ (ofDocument document settings).definitions,
        (transform entry.2).value = entry.2 ∧ (transform entry.2).changed = false) ∧
    hoistDefinitions (ofDocument document settings).definitions = ((ofDocument document settings).definitions, false) ∧
    ∀ again : Document, again.version = document.version →
      again.definitions = (ofDocument document settings).definitions → Webhook.ofDocument again.raw = [] →
      (ofDocument again settings).definitions = (ofDocument document settings).definitions ∧
        ∀ report ∈ (ofDocument again settings).passes, report.2.changed = false := by
  have normal := normal_ofDocument parsed settings
  have still := hoistDefinitions_of_blockless normal.blockless
  refine ⟨fun pass changed transform recorded given entry member => ?_, still, fun again version same none => ?_⟩
  · have runs := normal.recorded pass changed transform recorded given
    have listed : pass ∈ Pass.order := by cases pass <;> decide
    exact (normal.normal pass listed transform runs entry member).transform_eq given
  · obtain ⟨nothing, quiet⟩ := webhookDefinitions_of_nil none settings
    have hoisted : hoistDefinitions (again.definitions ++ (webhookDefinitions again settings).1) =
        ((ofDocument document settings).definitions, false) := by
      rw [nothing, List.append_nil, same]
      exact still
    obtain ⟨definitions, reports⟩ := run_of_normal
      { definitions := (ofDocument document settings).definitions } Pass.order rfl quiet
      (show ∀ pass ∈ Pass.order, ∀ transform, Runs settings again.version pass transform → _ by
        rw [version]; exact normal.normal)
    obtain ⟨own, passes⟩ := ofDocument_definitions again settings
    rw [hoisted] at own passes
    rw [own, passes]
    refine ⟨definitions, fun report recorded => ?_⟩
    rcases reports report recorded with impossible | unchanged
    · cases impossible
    · exact unchanged

/-- A definition with a block, a reference into it and a flag: what all of that becomes is normalized once and for
all. -/
theorem ofDocument_fixed_nullable_block :
    let document := Document.ofJson (.object [("definitions", .object [("Pet", .object
      [("$ref", .string "#/$defs/Tag"), ("nullable", .bool true), ("$defs", .object [("Tag", .bool true)])])])])
    let normal := (ofDocument document {}).definitions
    document.Parsed ∧ hoistDefinitions normal = (normal, false) ∧
      (ofDocument ⟨.null, document.version, normal⟩ {}).definitions = normal := by
  intro document normal
  have parsed : document.Parsed := by
    refine ⟨_, ?_, rfl⟩
    simp [Json.KeysDistinct, Json.FieldsKeysDistinct, Table.Distinct]
  obtain ⟨-, still, again⟩ := ofDocument_fixed parsed {}
  exact ⟨parsed, still, (again ⟨.null, document.version, normal⟩ rfl rfl rfl).1⟩

end SchemaSet

end Schemata
