import Schemata.Proofs.Pass.HoistReference
import Schemata.Proofs.Pass.NormalForm
import Schemata.Proofs.Pass.NullableAcceptance

namespace Schemata

namespace NodeOf

variable {n n' : Node} {s : Schema}

/-- Every subschema comes back as it was or as its image. -/
theorem mem_mapReach_of_mem (reach : Reach) (f : Schema → Schema) (member : s ∈ n.subschemas .auxiliary) :
    f s ∈ (n.mapReach reach f).subschemas .auxiliary ∨ s ∈ (n.mapReach reach f).subschemas .auxiliary := by
  cases reach with
  | auxiliary =>
    rw [subschemas_mapReach]
    exact Or.inl (List.mem_map_of_mem member)
  | keywords =>
    obtain ⟨near, far⟩ := subschemas_mapBoth f id n
    change f s ∈ (n.mapBoth f id).subschemas .auxiliary ∨ s ∈ (n.mapBoth f id).subschemas .auxiliary
    rw [subschemas_auxiliary, near, far, List.map_id]
    rw [subschemas_auxiliary] at member
    rcases List.mem_append.mp member with inner | outer
    · exact Or.inl (List.mem_append_left _ (List.mem_map_of_mem inner))
    · exact Or.inr (List.mem_append_right _ outer)

theorem referenceText_mapReach (n : Node) (reach : Reach) (f : Schema → Schema) :
    (n.mapReach reach f).referenceText? = n.referenceText? := by
  cases reach <;> rfl

end NodeOf

namespace Schema

variable {n n' : Node} {text : String}

theorem mem_references_node : text ∈ (Schema.node n).references ↔
    n.referenceText? = some text ∨ ∃ s ∈ n.subschemas .auxiliary, text ∈ s.references := by
  rw [references_node, List.mem_append, Option.mem_toList, List.mem_flatMap]

/-- A node that refers to the same keeps all references when each of its subschemas keeps its own. -/
theorem references_subset_of_inside (own : n'.referenceText? = n.referenceText?)
    (inside : ∀ s ∈ n.subschemas .auxiliary, ∃ t ∈ n'.subschemas .auxiliary, s.references ⊆ t.references) :
    (Schema.node n).references ⊆ (Schema.node n').references := by
  intro text mentioned
  refine mem_references_node.mpr ((mem_references_node.mp mentioned).imp own.trans ?_)
  rintro ⟨s, member, below⟩
  obtain ⟨t, there, kept⟩ := inside s member
  exact ⟨t, there, kept below⟩

/-- A walk loses no reference when its step loses none. -/
theorem Lowering.references_subset {reach : Reach} {step : Node → Noted Node} (lowering : Lowering step)
    (keeps : ∀ n, (Schema.node n).references ⊆ (Schema.node (step n).value).references) (schema : Schema) :
    schema.references ⊆ (mapNodes reach step schema).value.references := by
  induction schema using lowering.induction with
  | bool value =>
    rw [mapNodes_bool]
    exact List.Subset.refl _
  | malformed value =>
    rw [mapNodes_malformed]
    exact List.Subset.refl _
  | node n ih =>
    rw [lowering.mapNodes_value]
    refine List.Subset.trans (keeps n) (references_subset_of_inside (NodeOf.referenceText_mapReach ..) ?_)
    intro s member
    rcases NodeOf.mem_mapReach_of_mem reach (fun s => (mapNodes reach step s).value) member with image | same
    · exact ⟨_, image, ih s member⟩
    · exact ⟨s, same, List.Subset.refl _⟩

theorem references_choice (members : List Schema) (extra : List (String × Json)) :
    (Schema.node { anyOf := some (.valid members), extra }).references = members.flatMap references := by
  rw [references_node, NodeOf.subschemas_choice]
  rfl

theorem references_everyOf (members : List Schema) :
    (Schema.node (NodeOf.everyOf members)).references = members.flatMap references := by
  rw [references_node, NodeOf.subschemas_everyOf]
  rfl

theorem references_negation (schema : Schema) : (Schema.node (NodeOf.negation schema)).references = schema.references := by
  rw [references_node, NodeOf.subschemas_negation, List.flatMap_singleton]
  rfl

theorem references_guarded (condition : Schema) (branch : Option Schema) :
    (NodeOf.guarded condition branch).references = condition.references ++ branch.toList.flatMap references := by
  cases branch with
  | none => exact (List.append_nil _).symm
  | some branch => exact references_everyOf [condition, branch]

/-- The choice between the branches refers to what the condition and the branches refer to. -/
theorem references_branches {condition : Schema} {consequent alternative : Option Schema} {s : Schema}
    (member : s = condition ∨ s ∈ consequent.toList ∨ s ∈ alternative.toList) :
    s.references ⊆ (Schema.node (NodeOf.branches condition consequent alternative)).references := by
  intro text mentioned
  rw [NodeOf.branches, references_choice]
  simp only [List.flatMap_cons, List.flatMap_nil, references_guarded, references_negation, List.mem_append,
    List.mem_flatMap]
  rcases member with rfl | consequent | alternative
  · exact Or.inl (Or.inl mentioned)
  · exact Or.inl (Or.inr ⟨s, consequent, mentioned⟩)
  · exact Or.inr (Or.inl (Or.inr ⟨s, alternative, mentioned⟩))

theorem references_positionalItems (changed : n.positionalItems? = some n') :
    (Schema.node n).references ⊆ (Schema.node n').references := by
  obtain ⟨schemas, given, single, rfl⟩ := NodeOf.positionalItems_cases changed
  refine references_subset_of_inside rfl fun s member => ?_
  simp only [NodeOf.subschemas_auxiliary, NodeOf.subschemas_keywords, List.mem_append, NodeOf.listed] at member ⊢
  rcases items : n.items with - | (positions | rest)
  · refine ⟨s, ?_, List.Subset.refl _⟩
    simp only [NodeOf.elements, NodeOf.laterItems, items, given, List.not_mem_nil] at member ⊢
    tauto
  · exact absurd items (single positions)
  · rcases already : n.additionalItems with - | existing
    · refine ⟨s, ?_, List.Subset.refl _⟩
      simp only [NodeOf.elements, NodeOf.laterItems, items, already, given, Option.toList_none, Option.toList_some,
        List.not_mem_nil] at member ⊢
      tauto
    · by_cases joined : s ∈ [existing, rest]
      · refine ⟨.node (NodeOf.everyOf [existing, rest]), ?_, fun text mentioned => ?_⟩
        · simp only [NodeOf.laterItems, items, already, Option.toList_some, List.mem_singleton, or_true]
        · rw [references_everyOf]
          exact List.mem_flatMap.mpr ⟨s, joined, mentioned⟩
      · refine ⟨s, ?_, List.Subset.refl _⟩
        simp only [List.mem_cons, List.not_mem_nil, or_false, not_or] at joined
        simp only [NodeOf.elements, NodeOf.laterItems, items, already, given, Option.toList_some, List.mem_singleton,
          List.not_mem_nil] at member ⊢
        tauto

theorem references_unconditional (changed : n.unconditional? = some n') :
    (Schema.node n).references ⊆ (Schema.node n').references := by
  obtain ⟨condition, present, -, rfl⟩ := NodeOf.unconditional_cases changed
  refine references_subset_of_inside rfl fun s member => ?_
  by_cases branch : s = condition ∨ s ∈ n.consequent.toList ∨ s ∈ n.alternative.toList
  · refine ⟨.node (NodeOf.branches condition n.consequent n.alternative), ?_, references_branches branch⟩
    simp [NodeOf.subschemas_auxiliary, NodeOf.subschemas_keywords, NodeOf.listed]
  · refine ⟨s, ?_, List.Subset.refl _⟩
    simp only [NodeOf.subschemas_auxiliary, NodeOf.subschemas_keywords, List.mem_append, present, Option.toList_some,
      List.mem_singleton, NodeOf.listed] at member ⊢
    tauto

theorem references_resolveNullable (changed : n.resolveNullable? = some n') :
    (Schema.node n).references ⊆ (Schema.node n').references := by
  have inner : (Schema.node n.withoutFlag).references = (Schema.node n).references := by
    rw [references_node, references_node]
    rfl
  have same {n' : Node} (own : n'.referenceText? = n.referenceText?)
      (below : n'.subschemas .auxiliary = n.subschemas .auxiliary) :
      (Schema.node n).references ⊆ (Schema.node n').references := by
    rw [references_node, references_node, own, below]
    exact List.Subset.refl _
  rcases NodeOf.resolveNullable_cases changed with ⟨-, rfl⟩ | ⟨-, ⟨types, -, rfl⟩ | ⟨-, ⟨bare, rfl⟩ | ⟨-, rfl⟩⟩⟩
  · exact same rfl rfl
  · exact same rfl rfl
  · rw [← inner, NodeOf.eq_empty_of_isEmpty bare]
    exact List.Subset.refl _
  · intro text mentioned
    rw [← inner] at mentioned
    rw [references_choice]
    exact List.mem_flatMap.mpr ⟨.node n.withoutFlag, List.mem_cons_self, mentioned⟩

end Schema

/-- Every pass but that over references keeps all references as they are. -/
theorem Pass.references_transform {pass : Pass} {transform : Schema → Noted Schema}
    (given : pass.transform? = some transform) (other : pass ≠ .references) (schema : Schema) :
    schema.references ⊆ (transform schema).value.references := by
  have optional {step : Node → Option Node}
      (keeps : ∀ n n', step n = some n' → (Schema.node n).references ⊆ (Schema.node n').references) (n : Node) :
      (Schema.node n).references ⊆ (Schema.node (Noted.ofOption n (step n)).value).references := by
    cases changed : step n with
    | none => exact List.Subset.refl _
    | some n' => exact keeps n n' changed
  cases pass with
  | references => exact absurd rfl other
  | const =>
    cases given
    refine Schema.lowering_completeConst.references_subset (fun n => ?_) schema
    cases present : n.const with
    | none =>
      rw [NodeOf.completeConst_of_none present]
      exact List.Subset.refl _
    | some value =>
      rw [NodeOf.completeConst_value present]
      exact Schema.references_subset_of_inside rfl fun s member => ⟨s, member, List.Subset.refl _⟩
  | tuples =>
    cases given
    exact Schema.lowering_positionalItems.references_subset
      (optional fun _ _ => Schema.references_positionalItems) schema
  | conditionals =>
    cases given
    exact Schema.lowering_unconditional.references_subset
      (optional fun _ _ => Schema.references_unconditional) schema
  | nullable =>
    cases given
    exact Schema.lowering_resolveNullable.references_subset
      (optional fun _ _ => Schema.references_resolveNullable) schema
  | webhooks => cases given

end Schemata
