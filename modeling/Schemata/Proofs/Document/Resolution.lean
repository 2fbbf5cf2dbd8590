import Schemata.Proofs.Document.Standalone
import Schemata.Proofs.Pass.DisplacementSteps
import Schemata.Proofs.Pass.KeptReferences

namespace Schemata

namespace NormalizeSettings

/-- The passes over schemas that run, in their order. -/
def running (settings : NormalizeSettings) (version : SpecVersion) (passes : List Pass) : List Pass :=
  passes.filter fun pass => (settings.skips version pass).isNone && pass.transform?.isSome

theorem transform_of_running {settings : NormalizeSettings} {version : SpecVersion} {passes : List Pass} {pass : Pass}
    (member : pass ∈ settings.running version passes) : ∃ transform, pass.transform? = some transform :=
  Option.isSome_iff_exists.mp (Bool.and_eq_true_iff.mp (List.mem_filter.mp member).2).2

/-- The pass over references always runs, and runs first. -/
theorem running_order (settings : NormalizeSettings) (version : SpecVersion) :
    settings.running version Pass.order = .references :: settings.running version Pass.order.tail ∧
      .references ∉ settings.running version Pass.order.tail :=
  ⟨rfl, fun member => absurd (List.mem_filter.mp member).1 (by decide)⟩

/-- Nothing runs after the pass over nullable schemas. -/
theorem pairwise_running (settings : NormalizeSettings) (version : SpecVersion) :
    (settings.running version Pass.order).Pairwise fun earlier _ => earlier ≠ .nullable := by
  have all : (Pass.order.filter (·.transform?.isSome)).Pairwise fun earlier _ => earlier ≠ .nullable := by decide
  refine all.sublist ?_
  rw [running, ← List.filter_filter]
  exact List.filter_sublist

end NormalizeSettings

namespace SchemaSet

section

variable {settings : NormalizeSettings} {version : SpecVersion} {hoisted : Bool} {webhooks : Outcome}

/-- What the passes make of one schema. -/
def transformed (passes : List Pass) (schema : Schema) : Schema :=
  passes.foldl (fun schema pass => (pass.transform?.map fun transform => (transform schema).value).getD schema) schema

theorem run_definitions (passes : List Pass) (progress : Progress) :
    (passes.foldl (runPass settings version hoisted webhooks) progress).definitions =
      Table.mapValues (transformed (settings.running version passes)) progress.definitions := by
  induction passes generalizing progress with
  | nil => exact (List.map_id' _).symm
  | cons pass rest ih =>
    rw [List.foldl_cons, ih]
    by_cases runs : ∃ transform, Runs settings version pass transform
    · obtain ⟨transform, runs⟩ := runs
      have first : settings.running version (pass :: rest) = pass :: settings.running version rest := by
        simp [NormalizeSettings.running, runs.1, runs.2]
      rw [runPass_of_runs runs, transformAll_value, first, Table.mapValues, Table.mapValues, List.map_map]
      refine List.map_congr_left fun entry _ => ?_
      simp [transformed, runs.2]
    · obtain ⟨outcome, same, -⟩ := runPass_of_idle hoisted webhooks progress (not_exists.mp runs)
      have first : settings.running version (pass :: rest) = settings.running version rest := by
        refine List.filter_cons_of_neg fun both => runs ?_
        obtain ⟨unskipped, given⟩ := Bool.and_eq_true_iff.mp both
        obtain ⟨transform, given⟩ := Option.isSome_iff_exists.mp given
        exact ⟨transform, Option.isNone_iff_eq_none.mp unskipped, given⟩
      rw [same, first]

end

variable {passes : List Pass} {schema : Schema} {path : Pointer}

/-- What every pass hands on to the passes after it is there when all of them are done. -/
theorem transformed_induction {P : List Pass → Schema → Prop}
    (given : ∀ pass ∈ passes, ∃ transform, pass.transform? = some transform)
    (ordered : passes.Pairwise fun earlier _ => earlier ≠ .nullable)
    (step : ∀ pass rest transform schema, pass.transform? = some transform → (pass = .nullable → rest = []) →
      P (pass :: rest) schema → P rest (transform schema).value) (start : P passes schema) :
    P [] (transformed passes schema) := by
  induction passes generalizing schema with
  | nil => exact start
  | cons pass rest ih =>
    obtain ⟨⟨transform, known⟩, others⟩ := List.forall_mem_cons.mp given
    obtain ⟨first, later⟩ := List.pairwise_cons.mp ordered
    have next := step pass rest transform schema known
      (fun last => List.eq_nil_iff_forall_not_mem.mpr fun other member => first other member last) start
    have unfolded : transformed (pass :: rest) schema = transformed rest (transform schema).value := by
      simp only [transformed, List.foldl_cons, known, Option.map_some, Option.getD_some]
    rw [unfolded]
    exact ih others later next

theorem spared_transformed (given : ∀ pass ∈ passes, ∃ transform, pass.transform? = some transform)
    (ordered : passes.Pairwise fun earlier _ => earlier ≠ .nullable) (spared : schema.Spared passes true path) :
    (transformed passes schema).Spared [] true path :=
  transformed_induction (P := fun passes schema => schema.Spared passes true path) given ordered
    (fun _ _ _ _ known last => Pass.spared_transform known last) spared

theorem severed_transformed (given : ∀ pass ∈ passes, ∃ transform, pass.transform? = some transform)
    (ordered : passes.Pairwise fun earlier _ => earlier ≠ .nullable)
    (severed : schema.Severed passes (Pass.Missing passes) true path) :
    (transformed passes schema).Severed [] (Pass.Missing []) true path :=
  transformed_induction (P := fun passes schema => schema.Severed passes (Pass.Missing passes) true path) given ordered
    (fun _ _ _ _ known last => Pass.severed_transform known last) severed

theorem canonical_transformed (given : ∀ pass ∈ passes, ∃ transform, pass.transform? = some transform)
    (ordered : passes.Pairwise fun earlier _ => earlier ≠ .nullable) (canonical : Schema.Canonical schema) :
    Schema.Canonical (transformed passes schema) :=
  transformed_induction (P := fun _ schema => Schema.Canonical schema) given ordered
    (fun _ _ _ _ known _ => Schema.canonical_transform known) canonical

theorem references_transformed (given : ∀ pass ∈ passes, ∃ transform, pass.transform? = some transform)
    (ordered : passes.Pairwise fun earlier _ => earlier ≠ .nullable) (other : .references ∉ passes) :
    schema.references ⊆ (transformed passes schema).references := by
  refine (transformed_induction
    (P := fun passes after => .references ∉ passes ∧ schema.references ⊆ after.references) given ordered
    (fun pass rest transform after known _ before => ?_) ⟨other, List.Subset.refl _⟩).2
  obtain ⟨fresh, kept⟩ := before
  obtain ⟨differ, later⟩ := not_or.mp (mt List.mem_cons.mpr fresh)
  exact ⟨later, List.Subset.trans kept (Pass.references_transform known (Ne.symm differ) after)⟩

end SchemaSet

namespace Schema

variable {passes passes' : List Pass} {near : Bool} {schema : Schema} {path : Pointer}

theorem Spared.imp (spared : schema.Spared passes near path)
    (keeps : ∀ near n key, NodeOf.Keeps passes near n key → NodeOf.Keeps passes' near n key) :
    schema.Spared passes' near path := by
  induction spared with
  | here near schema => exact .here near schema
  | inside kept enter further ih => exact .inside (keeps _ _ _ kept) enter ih
  | carried kept other there => exact .carried (keeps _ _ _ kept) other there

theorem Severed.imp {gone gone' : Bool → Node → String → Prop} (severed : schema.Severed passes gone near path)
    (keeps : ∀ near n key, NodeOf.Keeps passes near n key → NodeOf.Keeps passes' near n key)
    (missing : ∀ near n key, gone near n key → gone' near n key) : schema.Severed passes' gone' near path := by
  induction severed with
  | here path lost => exact .here path (missing _ _ _ lost)
  | inside kept enter further ih => exact .inside (keeps _ _ _ kept) enter ih

/-- Another run of the pass over references displaces nothing. -/
theorem displacedBy_references {n : Node} {key : String} {pass : Pass} :
    n.DisplacedBy (.references :: passes) near key pass ↔ n.DisplacedBy passes near key pass := by
  constructor
  · rintro ⟨listed, displaces, unfilled⟩
    rcases List.mem_cons.mp listed with rfl | later
    · cases displaces
    · exact ⟨later, displaces, fun filled =>
        unfilled (filled.imp_right (And.imp_left (List.mem_cons_of_mem _)))⟩
  · rintro ⟨listed, displaces, unfilled⟩
    refine ⟨List.mem_cons_of_mem _ listed, displaces, fun filled => unfilled (filled.imp_right (And.imp_left ?_))⟩
    exact fun again => (List.mem_cons.mp again).resolve_left nofun

theorem keeps_references {n : Node} {key : String} (keeps : n.Keeps passes near key) :
    n.Keeps (.references :: passes) near key := fun pass displaced => keeps pass (displacedBy_references.mp displaced)

theorem spared_redirect (moves : List Reference.Move) (spared : schema.Spared passes true path) :
    (redirect moves schema).value.Spared passes true path :=
  (Pass.handles_redirect moves passes).spared (lowering_redirect moves) (spared.imp fun _ _ _ => keeps_references)

theorem severed_redirect (moves : List Reference.Move) (some : passes ≠ [])
    (severed : schema.Severed passes (Pass.Missing passes) true path) :
    (redirect moves schema).value.Severed passes (Pass.Missing passes) true path := by
  refine (Pass.handles_redirect moves passes).severed (lowering_redirect moves)
    (severed.imp (fun _ _ _ => keeps_references) fun near n key missing => ?_)
  rcases missing with ⟨pass, displaced, bare⟩ | ⟨absent, settled⟩
  · exact Or.inl ⟨pass, displacedBy_references.mpr displaced, bare⟩
  · exact Or.inr ⟨absent, Or.inl (settled.resolve_right some)⟩

theorem Canonical.withoutBlocks (canonical : Canonical schema) : Canonical schema.withoutBlocks := by
  cases schema with
  | node n =>
    obtain ⟨here, below⟩ := canonical_node.mp canonical
    rw [Schema.withoutBlocks, NodeOf.withoutBlocks_eq]
    exact .node { here with
      carried := fun key inside =>
        here.carried key (((withoutBlockFields_sublist n.extra).map _).subset inside) } below
  | bool value => exact canonical
  | malformed value => exact canonical

/-- A path into a block at the root is severed when the block is taken out. -/
theorem severed_withoutBlocks {value : Json} {entries : Table Json} {keyword : String} (distinct : value.KeysDistinct)
    (block : keyword ∈ blockKeywords) (present : value.resolve? [keyword] = some (.object entries))
    (passes : List Pass) (near : Bool) (path : Pointer) :
    (ofJson value).withoutBlocks.Severed passes (Pass.Missing passes) near (keyword :: path) := by
  obtain ⟨inner, found, same⟩ := Option.bind_eq_some_iff.mp present
  obtain rfl := Option.some.inj same
  have other : keyword ∉ keywords ∧ keyword ∈ NodeOf.unsupplied ∧ Pointer.index? keyword = none :=
    (show ∀ keyword ∈ blockKeywords,
      keyword ∉ keywords ∧ keyword ∈ NodeOf.unsupplied ∧ Pointer.index? keyword = none by decide) keyword block
  cases value with
  | object fields =>
    have carried : (nodeOfFields fields).extra.lookup keyword = some (.object entries) := by
      rw [nodeOfFields_eq]
      simp only [Table.lookup_filter (fun key => decide (key ∉ keywords)), other.1, not_false_eq_true, decide_true,
        if_true]
      exact found
    have names : Table.Distinct (nodeOfFields fields).extra :=
      (Json.keysDistinct_object.mp (distinct.sublist (nodeOfFields_extra fields))).1
    have gone : (withoutBlockFields (nodeOfFields fields).extra).lookup keyword = none := by
      have without := lookup_withoutBlockFields names block
      cases left : (withoutBlockFields (nodeOfFields fields).extra).lookup keyword with
      | none => rfl
      | some kept =>
        have inside := (withoutBlockFields_sublist _).subset (Table.mem_of_lookup left)
        obtain rfl := Option.some.inj (carried.symm.trans (Table.lookup_of_mem names inside))
        rw [left] at without
        cases without
    rw [ofJson, withoutBlocks, NodeOf.withoutBlocks_eq]
    refine .here path (Or.inr ⟨?_, Or.inl other.2.1⟩)
    rw [NodeOf.present?, if_neg other.1]
    exact gone
  | array items =>
    rw [Json.member?, other.2.2] at found
    cases found
  | _ => cases found

/-- No block is on the way to a subschema. -/
theorem At.withoutBlocks {target : Schema} (there : At path schema target) :
    ∃ target, At path schema.withoutBlocks target := by
  cases there with
  | here => exact ⟨_, .here _⟩
  | @inside n path rest child target enter further =>
    rw [Schema.withoutBlocks, NodeOf.withoutBlocks_eq]
    exact ⟨target, .inside enter further⟩

end Schema

namespace Owner

variable {owner : Owner} {passes : List Pass} {schema : Schema} {path : Pointer}

theorem spared_rewrite (spared : schema.Spared passes true path) : (owner.rewrite schema).Spared passes true path :=
  rewrite_induction (P := fun schema => schema.Spared passes true path) spared fun moves =>
    Schema.spared_redirect moves spared

theorem severed_rewrite (some : passes ≠ []) (severed : schema.Severed passes (Pass.Missing passes) true path) :
    (owner.rewrite schema).Severed passes (Pass.Missing passes) true path :=
  rewrite_induction (P := fun schema => schema.Severed passes (Pass.Missing passes) true path) severed fun moves =>
    Schema.severed_redirect moves some severed

theorem canonical_rewrite (canonical : Schema.Canonical schema) : Schema.Canonical (owner.rewrite schema) :=
  rewrite_induction canonical fun moves =>
    (Schema.lowering_redirect moves).canonical_mapNodes (fun _ => Schema.canonical_redirect) canonical

end Owner

namespace Document

theorem distinct_named {raw : Json} (distinct : raw.KeysDistinct) : Table.Distinct (named raw) := by
  cases place : (namedPlace? raw).bind Json.object? with
  | none =>
    rw [named, place]
    exact List.nodup_nil
  | some fields =>
    obtain ⟨value, found, object⟩ := Option.bind_eq_some_iff.mp place
    obtain rfl := Json.object?_eq_some_iff.mp object
    rw [named, place, Option.elim_some, Table.Distinct, Table.keys_mapValues]
    exact (Json.keysDistinct_object.mp (keysDistinct_namedPlace distinct found)).1

theorem Parsed.distinct {document : Document} (parsed : document.Parsed) : Table.Distinct document.definitions := by
  obtain ⟨raw, keys, rfl⟩ := parsed
  have inside := distinct_named keys
  change Table.Distinct (definitionsOf raw _)
  unfold definitionsOf
  split
  · split
    · exact List.nodup_cons.mpr ⟨NameAllocator.freeName_not_mem _ _, inside⟩
    · exact inside
  · exact inside

end Document

/-- The names of the webhooks are allocated in the order of the operations. -/
theorem Webhook.keys_define (document : Json) (names : NameAllocator) (operations : List Operation) :
    names.allocateAll (operations.map fun operation => baseName operation.1 operation.2.1) =
      (Table.keys (define document names operations).1, (define document names operations).2) := by
  induction operations generalizing names with
  | nil => rfl
  | cons operation rest ih =>
    obtain ⟨webhook, method, operation⟩ := operation
    have others := ih (names.allocate (baseName webhook method)).2
    simp only [List.map_cons, NameAllocator.allocateAll, define, others, Table.keys_cons]

namespace SchemaSet

variable {document : Document}

/-- Webhooks get names of their own. -/
theorem distinct_webhookDefinitions (parsed : document.Parsed) (settings : NormalizeSettings) :
    Table.Distinct (document.definitions ++ (webhookDefinitions document settings).1) := by
  unfold webhookDefinitions
  split
  · rw [List.append_nil]
    exact parsed.distinct
  · have gives := NameAllocator.allocateAll_gives (NameAllocator.reserving (Table.keys document.definitions))
      ((Webhook.operations document.webhooks).map fun operation => Webhook.baseName operation.1 operation.2.1)
    rw [Webhook.keys_define document.raw] at gives
    rw [Table.Distinct, Table.keys_append]
    refine List.nodup_append.mpr ⟨parsed.distinct, gives.distinct, ?_⟩
    rintro name early _ late rfl
    exact gives.free name late early

/-- The object in which the canonical references of the definitions are looked up. -/
def whole (set : SchemaSet) : Json := .object [("definitions", set.toJson)]

theorem pointer_whole (set : SchemaSet) {text name : String} {path : Pointer}
    (written : Pointer.ofText? ("/" ++ text) = some (name :: path)) :
    set.whole.pointer? ("/definitions/" ++ text) =
      (set.definitions.lookup name).bind fun schema => schema.toJson.resolve? path := by
  have first : set.whole.pointer? ("/definitions/" ++ text) = set.toJson.pointer? ("/" ++ text) :=
    Json.pointer?_append set.whole (show '/' ∉ "definitions".toList by decide) (by decide) text
  rw [first, Json.pointer?, written, Option.bind_some, Json.resolve?, toJson, Json.member?, Schema.tableToFields_eq,
    Table.lookup_mapValues, Option.bind_map]
  rfl

theorem pointer_components {raw : Json} {fields : Table Json} {text name : String} {path : Pointer}
    (shared : raw.resolve? ["components", "schemas"] = some (.object fields))
    (written : Pointer.ofText? ("/" ++ text) = some (name :: path)) :
    raw.pointer? ("/components/schemas/" ++ text) = (fields.lookup name).bind (·.resolve? path) := by
  obtain ⟨components, first, second⟩ := Option.bind_eq_some_iff.mp shared
  obtain ⟨schemas, third, same⟩ := Option.bind_eq_some_iff.mp second
  obtain rfl := Option.some.inj same
  have outer : raw.pointer? ("/components/schemas/" ++ text) =
      (raw.member? "components").bind (·.pointer? ("/" ++ ("schemas/" ++ text))) := by
    rw [← Json.pointer?_append raw (by decide) (by decide)]
    exact congrArg raw.pointer? (by simp only [← String.append_assoc]; rfl)
  have inner : components.pointer? ("/" ++ ("schemas/" ++ text)) =
      (components.member? "schemas").bind (·.pointer? ("/" ++ text)) := by
    rw [← Json.pointer?_append components (by decide) (by decide)]
    exact congrArg components.pointer? (by simp only [← String.append_assoc]; rfl)
  rw [outer, first, Option.bind_some, inner, third, Option.bind_some, Json.pointer?, written]
  rfl

/-- What becomes of a definition: its blocks are taken out, its own references to them follow, and the passes run. -/
theorem lookup_ofDocument (parsed : document.Parsed) (settings : NormalizeSettings) {name : String} {schema : Schema}
    (member : (name, schema) ∈ document.definitions) :
    ∃ trail ∈ trails (document.definitions ++ (webhookDefinitions document settings).1), trail.above = [] ∧
      trail.own.schema = schema ∧ trail.hoisted = trail.own.rewrite schema.withoutBlocks ∧
      (ofDocument document settings).definitions.lookup name =
        some (transformed (settings.running document.version Pass.order) trail.hoisted) := by
  have joined : (name, schema) ∈ document.definitions ++ (webhookDefinitions document settings).1 :=
    List.mem_append_left _ member
  obtain ⟨trail, planned, above, written⟩ := exists_trail_of_mem joined
  have own : trail.own.schema = schema := congrArg Prod.snd written
  have named : trail.own.name = name := congrArg Prod.fst written
  have found := Trail.lookup_hoisted (distinct_webhookDefinitions parsed settings) planned
  refine ⟨trail, planned, above, own, ?_, ?_⟩
  · rw [Trail.hoisted, above, own]
    rfl
  · rw [(ofDocument_definitions document settings).1, run_definitions, Table.lookup_mapValues, ← named, found,
      Option.map_some]

/-- All references of a definition to shared schemas are canonical in its normal form. -/
theorem references_ofDocument (parsed : document.Parsed) (settings : NormalizeSettings) {name : String}
    {schema : Schema} (member : (name, schema) ∈ document.definitions) :
    ∃ after, (ofDocument document settings).definitions.lookup name = some after ∧
      ∀ text, "#/components/schemas/" ++ text ∈ schema.references → "#/definitions/" ++ text ∈ after.references := by
  obtain ⟨trail, planned, above, own, -, found⟩ := lookup_ofDocument parsed settings member
  obtain ⟨first, fresh⟩ := settings.running_order document.version
  refine ⟨_, found, fun text mentioned => ?_⟩
  have canonical : "#/definitions/" ++ text ∈ trail.hoisted.normalizeReferences.value.references := by
    rw [Trail.references_hoisted planned, own]
    exact List.mem_map.mpr ⟨_, mentioned, (trail.resolve_components_iff text).mpr (Or.inl above)⟩
  have given : ∀ pass ∈ settings.running document.version Pass.order, ∃ transform, pass.transform? = some transform :=
    fun pass => NormalizeSettings.transform_of_running
  have ordered := settings.pairwise_running document.version
  rw [first] at given ordered ⊢
  exact references_transformed (List.forall_mem_cons.mp given).2 (List.pairwise_cons.mp ordered).2 fresh canonical

/-- Every reference to a shared schema becomes canonical. Where the pointer of such a reference leads through a shared
schema, the canonical pointer leads somewhere in the set when no pass that runs displaces a key on the way, and nowhere
when a key on the way is removed: `prefixItems` beside no positional `items`, a conditional beside a well-formed `allOf`,
whatever is no annotation beside the flag of an untyped schema, or a block at the root. These are all pointers to
subschemas, but for those through a key under which a pass puts something else. -/
theorem pointer_ofDocument {raw : Json} (distinct : raw.KeysDistinct) (settings : NormalizeSettings)
    {fields : Table Json} (shared : raw.resolve? ["components", "schemas"] = some (.object fields)) :
    let document := Document.ofJson raw
    let set := ofDocument document settings
    let passes := settings.running document.version Pass.order
    (∀ name schema, (name, schema) ∈ document.definitions → ∃ after, set.definitions.lookup name = some after ∧
      ∀ text, "#/components/schemas/" ++ text ∈ schema.references → "#/definitions/" ++ text ∈ after.references) ∧
    ∀ text name path value, Pointer.ofText? ("/" ++ text) = some (name :: path) → fields.lookup name = some value →
      let schema := (Schema.ofJson value).withoutBlocks
      raw.pointer? ("/components/schemas/" ++ text) = value.resolve? path ∧
      (schema.Spared passes true path → (set.whole.pointer? ("/definitions/" ++ text)).isSome) ∧
      (schema.Severed passes (Pass.Missing passes) true path →
        set.whole.pointer? ("/definitions/" ++ text) = none) ∧
      (∀ keyword ∈ blockKeywords, ∀ rest entries, path = keyword :: rest →
        value.resolve? [keyword] = some (.object entries) → set.whole.pointer? ("/definitions/" ++ text) = none) ∧
      ∀ target, Schema.At path (Schema.ofJson value) target → schema.Spared passes true path ∨
        schema.Severed passes (fun near n key => ¬ n.Keeps passes near key) true path := by
  intro document set passes
  have parsed : document.Parsed := ⟨raw, distinct, rfl⟩
  refine ⟨fun name schema => references_ofDocument parsed settings, ?_⟩
  intro text name path value written listed schema
  have place : Document.namedPlace? raw = some (.object fields) := by
    rw [Document.namedPlace?, shared]
    rfl
  have named : (name, Schema.ofJson value) ∈ document.definitions := by
    have entry : (name, Schema.ofJson value) ∈ Document.named raw := by
      rw [Document.named, place]
      exact List.mem_map_of_mem (Table.mem_of_lookup listed)
    change _ ∈ Document.definitionsOf raw _
    unfold Document.definitionsOf
    split
    · split
      · exact List.mem_cons_of_mem _ entry
      · exact entry
    · exact entry
  have given : ∀ pass ∈ passes, ∃ transform, pass.transform? = some transform :=
    fun pass => NormalizeSettings.transform_of_running
  have ordered := settings.pairwise_running document.version
  have some : passes ≠ [] := by
    change settings.running document.version Pass.order ≠ []
    rw [(settings.running_order document.version).1]
    exact List.cons_ne_nil _ _
  obtain ⟨trail, -, -, -, hoisted, found⟩ := lookup_ofDocument parsed settings named
  have leads : set.whole.pointer? ("/definitions/" ++ text) =
      (transformed passes (trail.own.rewrite schema)).toJson.resolve? path := by
    rw [pointer_whole set written, found, hoisted]
    rfl
  have canonical : Schema.Canonical schema := (Schema.canonical_ofJson value).withoutBlocks
  have dangles (severed : schema.Severed passes (Pass.Missing passes) true path) :
      set.whole.pointer? ("/definitions/" ++ text) = none := by
    rw [leads]
    exact (severed_transformed given ordered (Owner.severed_rewrite some severed)).dangles
      (canonical_transformed given ordered (Owner.canonical_rewrite canonical))
  refine ⟨?_, fun spared => ?_, dangles, ?_, fun target there => ?_⟩
  · rw [pointer_components shared written, listed]
    rfl
  · rw [leads]
    exact (spared_transformed given ordered (Owner.spared_rewrite spared)).resolves
  · rintro keyword block rest entries rfl present
    have inner : value.KeysDistinct := (distinct.resolve? shared).of_mem (Table.mem_of_lookup listed)
    exact dangles (Schema.severed_withoutBlocks inner block present passes true rest)
  · obtain ⟨target, inside⟩ := there.withoutBlocks
    exact inside.spared_or_severed passes true

/-- `User` refers to the first position of `Pair`. The reference becomes canonical, but the positions are no longer where
the pointer looks for them. -/
theorem pointer_ofDocument_position :
    let fields : Table Json := [
      ("Pair", .object [("prefixItems", .array [.object [("type", .string "string")]])]),
      ("User", .object [("$ref", .string "#/components/schemas/Pair/prefixItems/0")])]
    let raw : Json := .object [("openapi", .string "3.1.0"), ("components", .object [("schemas", .object fields)])]
    let set := ofDocument (Document.ofJson raw) {}
    raw.KeysDistinct ∧ raw.resolve? ["components", "schemas"] = some (.object fields) ∧
      raw.pointer? "/components/schemas/Pair/prefixItems/0" = some (.object [("type", .string "string")]) ∧
      (∃ after, set.definitions.lookup "User" = some after ∧
        "#/definitions/Pair/prefixItems/0" ∈ after.references) ∧
      set.whole.pointer? "/definitions/Pair/prefixItems/0" = none := by
  intro fields raw set
  have distinct : raw.KeysDistinct := by
    simp [raw, fields, Json.KeysDistinct, Json.FieldsKeysDistinct, Json.ItemsKeysDistinct, Table.Distinct]
  have shared : raw.resolve? ["components", "schemas"] = some (.object fields) := rfl
  have definitions : (Document.ofJson raw).definitions = Table.mapValues Schema.ofJson fields := rfl
  obtain ⟨canonical, pointers⟩ := pointer_ofDocument distinct {} shared
  obtain ⟨after, found, references⟩ := canonical "User" (Schema.ofJson
    (.object [("$ref", .string "#/components/schemas/Pair/prefixItems/0")])) (by simp [definitions, fields, Table.mapValues])
  obtain ⟨place, -, dangles, -⟩ := pointers "Pair/prefixItems/0" "Pair" ["prefixItems", "0"]
    (.object [("prefixItems", .array [.object [("type", .string "string")]])]) rfl rfl
  refine ⟨distinct, shared, place, ⟨after, found, references "Pair/prefixItems/0" ?_⟩, dangles ?_⟩
  · decide +kernel
  · refine .here _ (Or.inl ⟨.tuples, ⟨by decide, ⟨⟨_, rfl⟩, Or.inl ⟨rfl, fun _ same => ?_⟩⟩, fun both => ?_⟩, by decide⟩)
    · cases same
    · cases both.1

end SchemaSet

end Schemata
