import Schemata.Proofs.Pass.NormalForm
import Schemata.Proofs.Schema.RoundTrip

namespace Schemata

namespace Schema

section

variable {n n' : Node}

theorem malformed_of_map {α β : Type} {f : α → β} {slot : Option (Slot α)} {value : Json}
    (image : slot.map (Slot.map f) = some (.malformed value)) : slot = some (.malformed value) := by
  rcases slot with - | (own | own) <;> cases image
  rfl

/-- Replacing subschemas keeps a node faithful when no list of values takes the place of a schema. -/
theorem Faithful.mapBoth (faithful : Faithful n) {f g : Schema → Schema}
    (kept : ∀ s values, f s = .malformed (.array values) → s = .malformed (.array values)) :
    Faithful (n.mapBoth f g) where
  types := faithful.types
  enum := faithful.enum
  properties value image := faithful.properties value (malformed_of_map image)
  required := faithful.required
  items values image := by
    obtain ⟨items, present, same⟩ := Option.map_eq_some_iff.mp image
    rcases items with schemas | schema
    · cases same
    · rw [kept schema values (Items.single.inj same)] at present
      exact faithful.items values present
  prefixItems value image := faithful.prefixItems value (malformed_of_map image)
  allOf value image := faithful.allOf value (malformed_of_map image)
  anyOf value image := faithful.anyOf value (malformed_of_map image)
  oneOf value image := faithful.oneOf value (malformed_of_map image)
  reference := faithful.reference
  nullable := faithful.nullable
  carried := faithful.carried

theorem Faithful.mapReach (faithful : Faithful n) {reach : Reach} {f : Schema → Schema}
    (kept : ∀ s values, f s = .malformed (.array values) → s = .malformed (.array values)) :
    Faithful (n.mapReach reach f) := by
  cases reach with
  | keywords => exact faithful.mapBoth kept
  | auxiliary => exact faithful.mapBoth kept

theorem canonical_node : Canonical (.node n) ↔ Faithful n ∧ ∀ s ∈ n.subschemas .auxiliary, Canonical s := by
  constructor
  · rintro (- | - | ⟨here, below⟩)
    exact ⟨here, below⟩
  · rintro ⟨here, below⟩
    exact .node here below

/-- A walk keeps schemas canonical when its step does. -/
theorem Lowering.canonical_mapNodes {reach : Reach} {step : Node → Noted Node} (lowering : Lowering step)
    (keeps : ∀ n, Canonical (.node n) → Canonical (.node (step n).value)) {schema : Schema}
    (canonical : Canonical schema) : Canonical (mapNodes reach step schema).value := by
  have kept (s : Schema) (values : List Json)
      (image : (mapNodes reach step s).value = .malformed (.array values)) : s = .malformed (.array values) := by
    cases s with
    | bool value => rwa [mapNodes_bool] at image
    | malformed value => rwa [mapNodes_malformed] at image
    | node n =>
      rw [lowering.mapNodes_value] at image
      cases image
  induction schema using lowering.induction with
  | bool value => exact canonical
  | malformed value => rwa [mapNodes_malformed]
  | node n ih =>
    obtain ⟨here, below⟩ := canonical_node.mp (keeps n canonical)
    rw [lowering.mapNodes_value]
    refine .node (here.mapReach kept) fun t member => ?_
    obtain ⟨s, inside, rfl | rfl⟩ := NodeOf.mem_subschemas_mapReach member
    · exact ih s inside (below s inside)
    · exact below t inside

theorem Faithful.redirected (faithful : Faithful n) (moves : List Reference.Move) : Faithful (n.redirected moves) :=
  { faithful with
    reference := fun value image => faithful.reference value (malformed_of_map image) }

theorem canonical_redirect {moves : List Reference.Move} (canonical : Canonical (.node n)) :
    Canonical (.node (Noted.ofOption n (n.redirect? moves)).value) := by
  obtain ⟨here, below⟩ := canonical_node.mp canonical
  rw [NodeOf.redirect_value]
  exact .node (here.redirected moves) below

theorem canonical_completeConst (canonical : Canonical (.node n)) : Canonical (.node n.completeConst.value) := by
  obtain ⟨here, below⟩ := canonical_node.mp canonical
  cases present : n.const with
  | none => rwa [NodeOf.completeConst_of_none present]
  | some value =>
    have filled {α : Type} {slot : Option (Slot α)} {default : α} {kept : Json}
        (image : some (slot.getD (.valid default)) = some (.malformed kept)) : slot = some (.malformed kept) := by
      cases slot with
      | none => cases image
      | some own => exact image
    rw [NodeOf.completeConst_value present]
    exact .node { here with
      types := fun value image => here.types value (filled image)
      enum := fun value image => here.enum value (filled image) } below

theorem canonical_everyOf {members : List Schema} (each : ∀ s ∈ members, Canonical s) :
    Canonical (.node (NodeOf.everyOf members)) := by
  refine .node (by constructor <;> nofun) fun s member => each s ?_
  rwa [NodeOf.subschemas_everyOf] at member

theorem canonical_positionalItems (canonical : Canonical (.node n)) :
    Canonical (.node (Noted.ofOption n n.positionalItems?).value) := by
  obtain ⟨here, below⟩ := canonical_node.mp canonical
  cases changed : n.positionalItems? with
  | none => exact canonical
  | some n' =>
    refine .node ?_ fun s member => ?_
    · obtain ⟨schemas, -, -, rfl⟩ := NodeOf.positionalItems_cases changed
      exact { here with
        items := nofun
        prefixItems := nofun }
    · rcases NodeOf.subschemas_positionalItems changed member with before | ⟨-, existing, rest, present, single, rfl⟩
      · exact below s before
      · have joined (s : Schema) (inside : s ∈ [existing, rest]) : Canonical s := by
          refine below s ?_
          rcases List.mem_pair.mp inside with rfl | rfl
          · simp [NodeOf.subschemas_auxiliary, present]
          · simp [NodeOf.subschemas_auxiliary, NodeOf.subschemas_keywords, NodeOf.elements, single]
        exact canonical_everyOf joined

theorem canonical_choice {members : List Schema} {extra : List (String × Json)}
    (carried : ∀ key ∈ Table.keys extra, key ∉ keywords) (each : ∀ s ∈ members, Canonical s) :
    Canonical (.node { anyOf := some (.valid members), extra }) := by
  refine .node (by constructor <;> first | exact carried | nofun) fun s member => each s ?_
  rwa [NodeOf.subschemas_choice] at member

theorem canonical_guarded {condition : Schema} {branch : Option Schema} (guard : Canonical condition)
    (each : ∀ s ∈ branch, Canonical s) : Canonical (NodeOf.guarded condition branch) := by
  cases branch with
  | none => exact guard
  | some branch =>
    refine canonical_everyOf fun s member => ?_
    rcases List.mem_pair.mp member with rfl | rfl
    · exact guard
    · exact each s rfl

theorem canonical_negation {schema : Schema} (canonical : Canonical schema) :
    Canonical (.node (NodeOf.negation schema)) := by
  refine .node (by constructor <;> nofun) fun s member => ?_
  rw [NodeOf.subschemas_negation] at member
  exact List.mem_singleton.mp member ▸ canonical

theorem canonical_unconditional (canonical : Canonical (.node n)) :
    Canonical (.node (Noted.ofOption n n.unconditional?).value) := by
  obtain ⟨here, below⟩ := canonical_node.mp canonical
  cases changed : n.unconditional? with
  | none => exact canonical
  | some n' =>
    obtain ⟨condition, present, -, rfl⟩ := NodeOf.unconditional_cases changed
    have guard : Canonical condition := below condition (by
      simp [NodeOf.subschemas_auxiliary, NodeOf.subschemas_keywords, present])
    have consequent (s : Schema) (branch : s ∈ n.consequent) : Canonical s := below s (by
      simp [NodeOf.subschemas_auxiliary, NodeOf.subschemas_keywords, Option.mem_def.mp branch])
    have alternative (s : Schema) (branch : s ∈ n.alternative) : Canonical s := below s (by
      simp [NodeOf.subschemas_auxiliary, NodeOf.subschemas_keywords, Option.mem_def.mp branch])
    refine .node { here with allOf := nofun } fun s member => ?_
    rcases NodeOf.subschemas_unconditional member with before | rfl
    · exact below s before
    · refine canonical_choice nofun fun s member => ?_
      rcases List.mem_pair.mp member with rfl | rfl
      · exact canonical_guarded guard consequent
      · exact canonical_guarded (canonical_negation guard) alternative

theorem canonical_resolveNullable (canonical : Canonical (.node n)) :
    Canonical (.node (Noted.ofOption n n.resolveNullable?).value) := by
  obtain ⟨here, below⟩ := canonical_node.mp canonical
  have part (kept : String × Json → Bool) (key : String) (inside : key ∈ Table.keys (n.extra.filter kept)) :
      key ∉ keywords :=
    here.carried key ((List.filter_sublist.map _).subset inside)
  cases changed : n.resolveNullable? with
  | none => exact canonical
  | some n' =>
    rcases NodeOf.resolveNullable_cases changed with ⟨-, rfl⟩ | ⟨-, ⟨types, -, rfl⟩ | ⟨-, ⟨-, rfl⟩ | ⟨-, rfl⟩⟩⟩
    · exact .node { here with nullable := nofun } below
    · refine .node { here with types := nofun, enum := fun value image => ?_, nullable := nofun } below
      obtain ⟨slot, present, same⟩ := Option.map_eq_some_iff.mp image
      rcases slot with values | own <;> cases same
      exact here.enum _ present
    · refine .node (by constructor <;> first | exact part _ | nofun) nofun
    · refine canonical_choice (part _) fun s member => ?_
      rcases List.mem_pair.mp member with rfl | rfl
      · exact .node { here with nullable := nofun, carried := part _ } below
      · exact .node (by constructor <;> nofun) nofun

end

/-- Schemas that were read, and what passes make of them, one after the other. -/
inductive Produced : Schema → Prop
  | read (value : Json) : Produced (ofJson value)
  | passed {pass : Pass} {transform : Schema → Noted Schema} {schema : Schema}
      (given : pass.transform? = some transform) (before : Produced schema) : Produced (transform schema).value

/-- Every pass keeps schemas canonical. -/
theorem canonical_transform {pass : Pass} {transform : Schema → Noted Schema}
    (given : pass.transform? = some transform) {schema : Schema} (canonical : Canonical schema) :
    Canonical (transform schema).value := by
  cases pass <;> cases given
  · exact (lowering_redirect []).canonical_mapNodes (fun _ => canonical_redirect) canonical
  · exact lowering_completeConst.canonical_mapNodes (fun _ => canonical_completeConst) canonical
  · exact lowering_positionalItems.canonical_mapNodes (fun _ => canonical_positionalItems) canonical
  · exact lowering_unconditional.canonical_mapNodes (fun _ => canonical_unconditional) canonical
  · exact lowering_resolveNullable.canonical_mapNodes (fun _ => canonical_resolveNullable) canonical

theorem Produced.canonical {schema : Schema} (produced : Produced schema) : Canonical schema := by
  induction produced with
  | read value => exact canonical_ofJson value
  | passed given before ih => exact canonical_transform given ih

/-- Reading and writing lose nothing. What is written for a value that was read is the value up to the order of
entries. In every object that is read as a node, the keywords that are present come first, in their order, then all
other keys in source order; where a value does not have the shape in which its key holds schemas, it stands there as it
was, and so does every malformed schema. Whatever is read, and whatever passes make of it, is read back as it is
written. -/
theorem lossless {value : Json} (distinct : value.KeysDistinct) :
    value.Reordered (ofJson value).toJson ∧
    (∀ n ∈ (ofJson value).nodes .auxiliary, ∃ path, At path (ofJson value) (.node n)) ∧
    (∀ path n, At path (ofJson value) (.node n) → ∃ source written,
      value.resolve? path = some (.object source) ∧ (ofJson value).toJson.resolve? path = some (.object written) ∧
      n = nodeOfFields source ∧
      Table.keys written =
        keywords.filter (· ∈ Table.keys source) ++ (Table.keys source).filter (· ∉ keywords) ∧
      ∀ key inner, source.lookup key = some inner → ¬ holdsSchemas key inner → written.lookup key = some inner) ∧
    (∀ path kept, At path (ofJson value) (.malformed kept) →
      value.resolve? path = some kept ∧ (ofJson value).toJson.resolve? path = some kept) ∧
    ∀ schema, Produced schema → ofJson schema.toJson = schema := by
  refine ⟨reordered_rewritten distinct, fun n => exists_at_of_mem_nodes distinct, fun path n there => ?_,
    fun path kept there => ?_, fun schema produced => produced.canonical.ofJson_toJson⟩
  · obtain ⟨inner, found, read⟩ := there.of_ofJson
    cases inner with
    | object source =>
      obtain rfl : n = nodeOfFields source := node.inj read
      refine ⟨source, nodeFields (nodeOfFields source), found, there.resolve_toJson, rfl, keys_rewritten source, ?_⟩
      intro key inner present verbatim
      rw [lookup_rewritten, present, Option.map_some,
        rewrittenUnder_of_not_holds (Bool.eq_false_iff.mpr verbatim)]
    | _ => cases read
  · obtain ⟨inner, found, read⟩ := there.of_ofJson
    rw [malformed_ofJson read.symm]
    exact ⟨found, malformed_ofJson read.symm ▸ there.resolve_toJson⟩

/-- A type that is no name is kept and moves to the front, inside a declared property as well. -/
theorem lossless_malformed_type :
    let value := Json.object [("minLength", .string "2"), ("const", .null),
      ("properties", .object [("a", .object [("x-b", .null), ("type", .bool true)])])]
    let written := Json.object [("const", .null),
      ("properties", .object [("a", .object [("type", .bool true), ("x-b", .null)])]), ("minLength", .string "2")]
    value.KeysDistinct ∧ (ofJson value).toJson = written ∧ value.Reordered written ∧
      ofJson written = ofJson value := by
  intro value written
  have distinct : value.KeysDistinct := by
    simp [value, Json.KeysDistinct, Json.FieldsKeysDistinct, Table.Distinct]
  have same : (ofJson value).toJson = written := rfl
  obtain ⟨reordered, -, -, -, back⟩ := lossless distinct
  exact ⟨distinct, same, same ▸ reordered, same ▸ back _ (.read value)⟩

end Schema

end Schemata
