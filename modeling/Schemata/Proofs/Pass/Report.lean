import Schemata.Proofs.Pass.Properties

namespace Schemata

namespace NodeOf

theorem mem_children_auxiliary {S : Type} {reach : Reach} {n : NodeOf S} {child : Pointer × S}
    (member : child ∈ n.children reach) : child ∈ n.children .auxiliary := by
  cases reach with
  | keywords =>
    rw [children, List.append_nil] at member
    exact List.mem_append_left _ member
  | auxiliary => exact member

/-- A path enters a subschema within reach and, in the image of the node, its image. -/
theorem exists_enter_mapReach {n : Node} {reach : Reach} {s : Schema} (distinct : n.PropertiesDistinct)
    (member : s ∈ n.subschemas reach) (f : Schema → Schema) : ∃ step : Pointer, ∀ rest,
      n.enter? (step ++ rest) = some (s, rest) ∧ (n.mapReach reach f).enter? (step ++ rest) = some (f s, rest) := by
  obtain ⟨⟨step, s⟩, listed, rfl⟩ := List.mem_map.mp member
  have image : (step, f s) ∈ (n.mapReach reach f).children reach := by
    rw [children_mapReach]
    exact List.mem_map_of_mem listed
  refine ⟨step, fun rest => ⟨?_, ?_⟩⟩
  · exact (enter_of_mem_children distinct (mem_children_auxiliary listed)).2 rest
  · exact (enter_of_mem_children (distinct.mapReach reach f) (mem_children_auxiliary image)).2 rest

end NodeOf

namespace Pass

variable {pass : Pass} {transform : Schema → Noted Schema} {step : Node → Noted Node} {schema : Schema}

theorem transform_of_unchanged (given : pass.transform? = some transform) (unchanged : (transform schema).changed = false) :
    (transform schema).value = schema := by
  obtain ⟨step, walks⟩ := exists_walks given
  rw [walks.eq_mapNodes] at unchanged ⊢
  exact walks.lowering.mapNodes_of_unchanged walks.honest unchanged

/-- A pass reports nothing exactly of a schema in its normal form. -/
theorem unchanged_iff_normalForm (given : pass.transform? = some transform) :
    (transform schema).changed = false ↔ pass.NormalForm schema := by
  refine ⟨fun unchanged => ?_, fun normal => (normal.transform_eq given).2⟩
  rw [← transform_of_unchanged given unchanged]
  exact normalForm_transform given schema

/-- A report comes from a topmost node that is not normal; the result has a normal node in its place. -/
theorem Walks.exists_of_changed (walks : pass.Walks transform step) (distinct : schema.PropertiesDistinct)
    (changed : (transform schema).changed = true) : ∃ path n n', Schema.At path schema (.node n) ∧
      Schema.At path (transform schema).value (.node n') ∧ ¬ pass.Normal n ∧ pass.Normal n' := by
  rw [walks.eq_mapNodes] at changed ⊢
  induction schema using walks.lowering.induction with
  | bool value => simp at changed
  | malformed value => simp at changed
  | node n ih =>
    rw [walks.lowering.mapNodes_value]
    by_cases here : (step n).changed = true
    · refine ⟨[], n, _, .here _, .here _, fun normal => ?_, normal_mapReach pass pass.reach _ _ (walks.normal n)⟩
      rw [(walks.settled n normal).2] at here
      cases here
    have same := walks.honest n (Bool.eq_false_iff.mpr here)
    rw [walks.lowering.mapNodes_changed, Bool.eq_false_iff.mpr here, Bool.false_or, same, List.any_eq_true] at changed
    rw [same] at ih ⊢
    obtain ⟨s, member, changed⟩ := changed
    obtain ⟨own, below⟩ := Schema.every_node.mp distinct
    have inside := NodeOf.mem_auxiliary_of_mem member
    obtain ⟨path, m, m', before, after, work, done⟩ := ih s inside (below s inside) changed
    obtain ⟨first, enter⟩ := NodeOf.exists_enter_mapReach own member fun s => (Schema.mapNodes pass.reach step s).value
    exact ⟨first ++ path, m, m', .inside (enter path).1 before, .inside (enter path).2 after, work, done⟩

/-- The report of a pass is exact. -/
theorem changed_iff (given : pass.transform? = some transform) (schema : Schema) :
    ((transform schema).changed = true ↔ (transform schema).value ≠ schema) ∧
    ((transform schema).changed = true ↔ ∃ n ∈ schema.nodes pass.reach, ¬ pass.Normal n) ∧
    (∀ n ∈ (transform schema).value.nodes pass.reach, pass.Normal n) ∧
    (schema.PropertiesDistinct → (transform schema).changed = true → ∃ path n n',
      Schema.At path schema (.node n) ∧ Schema.At path (transform schema).value (.node n') ∧
        ¬ pass.Normal n ∧ pass.Normal n') := by
  obtain ⟨step, walks⟩ := exists_walks given
  have unchanged : (transform schema).changed = false ↔ pass.NormalForm schema := unchanged_iff_normalForm given
  have normal := normalForm_transform given schema
  refine ⟨⟨fun changed same => ?_, fun differ => ?_⟩, ?_, normal, walks.exists_of_changed⟩
  · rw [same] at normal
    rw [unchanged.mpr normal] at changed
    cases changed
  · by_contra quiet
    exact differ (transform_of_unchanged given (Bool.eq_false_iff.mpr quiet))
  · rw [← Bool.not_eq_false, unchanged, NormalForm, Schema.Every]
    push Not
    rfl

/-- A node that the pass must leave as it is, above one that it changes. -/
theorem changed_iff_property :
    let schema := Schema.ofJson (.object [("type", .bool true), ("nullable", .bool true), ("properties", .object
      [("name", .object [("type", .string "string"), ("nullable", .bool true)])])])
    Pass.nullable.transform? = some Schema.normalizeNullable ∧ schema.PropertiesDistinct ∧
      schema.normalizeNullable.changed = true ∧ schema.normalizeNullable.value ≠ schema ∧
      ∃ path n n', Schema.At path schema (.node n) ∧ Schema.At path schema.normalizeNullable.value (.node n') ∧
        ¬ Pass.nullable.Normal n ∧ Pass.nullable.Normal n' := by
  intro schema
  have distinct : schema.PropertiesDistinct := Schema.propertiesDistinct_ofJson (by
    simp [Json.KeysDistinct, Json.FieldsKeysDistinct, Table.Distinct])
  have changed : schema.normalizeNullable.changed = true := by decide +kernel
  have given : Pass.nullable.transform? = some Schema.normalizeNullable := rfl
  obtain ⟨differ, -, -, topmost⟩ := changed_iff given schema
  exact ⟨given, distinct, changed, differ.mp changed, topmost distinct changed⟩

end Pass

end Schemata
