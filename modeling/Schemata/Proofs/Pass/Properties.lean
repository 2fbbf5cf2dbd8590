import Schemata.Proofs.Pass.Lossless
import Schemata.Proofs.Schema.Issue

namespace Schemata

namespace NodeOf

theorem PropertiesDistinct.mapReach (reach : Reach) (f : Schema → Schema) (n : Node) (distinct : n.PropertiesDistinct) :
    (n.mapReach reach f).PropertiesDistinct := by
  intro table given
  have image : n.properties.map (Slot.map (Table.mapValues f)) = some (.valid table) := by cases reach <;> exact given
  obtain ⟨slot, own, same⟩ := Option.map_eq_some_iff.mp image
  rcases slot with before | value <;> cases same
  rw [Table.Distinct, Table.keys_mapValues]
  exact distinct before own

end NodeOf

namespace Schema

variable {n n' : Node} {schema condition : Schema} {branch : Option Schema} {members : List Schema}

/-- A node that declares no properties is as good as its subschemas. -/
theorem propertiesDistinct_of_none (none : n.properties = none)
    (below : ∀ s ∈ n.subschemas .auxiliary, s.PropertiesDistinct) : (Schema.node n).PropertiesDistinct := by
  refine every_node.mpr ⟨fun table given => ?_, below⟩
  rw [none] at given
  cases given

theorem propertiesDistinct_everyOf (each : ∀ s ∈ members, s.PropertiesDistinct) :
    (Schema.node (NodeOf.everyOf members)).PropertiesDistinct := by
  refine propertiesDistinct_of_none rfl ?_
  rwa [NodeOf.subschemas_everyOf]

theorem propertiesDistinct_choice (extra : List (String × Json)) (each : ∀ s ∈ members, s.PropertiesDistinct) :
    (Schema.node { anyOf := some (.valid members), extra }).PropertiesDistinct := by
  refine propertiesDistinct_of_none rfl ?_
  rwa [NodeOf.subschemas_choice]

theorem propertiesDistinct_negation (distinct : schema.PropertiesDistinct) :
    (Schema.node (NodeOf.negation schema)).PropertiesDistinct := by
  refine propertiesDistinct_of_none rfl ?_
  rwa [NodeOf.subschemas_negation, List.forall_mem_singleton]

theorem propertiesDistinct_guarded (guard : condition.PropertiesDistinct) (each : ∀ s ∈ branch, s.PropertiesDistinct) :
    Schema.PropertiesDistinct (NodeOf.guarded condition branch) := by
  cases branch with
  | none => exact guard
  | some branch =>
    refine propertiesDistinct_everyOf fun s member => ?_
    rcases List.mem_pair.mp member with rfl | rfl
    · exact guard
    · exact each s rfl

/-- Steps that leave the declared properties alone keep their names distinct, when what they add below is distinct. -/
theorem PropertiesDistinct.of_step (distinct : (Schema.node n).PropertiesDistinct) (same : n'.properties = n.properties)
    (below : ∀ s ∈ n'.subschemas .auxiliary, s ∈ n.subschemas .auxiliary ∨ s.PropertiesDistinct) :
    (Schema.node n').PropertiesDistinct := by
  obtain ⟨here, inner⟩ := every_node.mp distinct
  refine every_node.mpr ⟨fun table given => here table (same ▸ given), fun s member => ?_⟩
  exact (below s member).elim (inner s) id

theorem propertiesDistinct_completeConst (distinct : (Schema.node n).PropertiesDistinct) :
    (Schema.node n.completeConst.value).PropertiesDistinct := by
  cases present : n.const with
  | none => rwa [NodeOf.completeConst_of_none present]
  | some value =>
    rw [NodeOf.completeConst_value present]
    exact distinct.of_step rfl fun s member => Or.inl member

theorem propertiesDistinct_positionalItems (distinct : (Schema.node n).PropertiesDistinct) :
    (Schema.node (Noted.ofOption n n.positionalItems?).value).PropertiesDistinct := by
  cases changed : n.positionalItems? with
  | none => exact distinct
  | some n' =>
    have same : n'.properties = n.properties := by
      obtain ⟨schemas, -, -, rfl⟩ := NodeOf.positionalItems_cases changed
      rfl
    refine distinct.of_step same fun s member => ?_
    rcases NodeOf.subschemas_positionalItems changed member with before | ⟨-, existing, rest, present, single, rfl⟩
    · exact Or.inl before
    · refine Or.inr (propertiesDistinct_everyOf fun s inside => (every_node.mp distinct).2 s ?_)
      rcases List.mem_pair.mp inside with rfl | rfl
      · simp [NodeOf.subschemas_auxiliary, present]
      · simp [NodeOf.subschemas_auxiliary, NodeOf.subschemas_keywords, NodeOf.elements, single]

theorem propertiesDistinct_unconditional (distinct : (Schema.node n).PropertiesDistinct) :
    (Schema.node (Noted.ofOption n n.unconditional?).value).PropertiesDistinct := by
  cases changed : n.unconditional? with
  | none => exact distinct
  | some n' =>
    obtain ⟨condition, present, -, rfl⟩ := NodeOf.unconditional_cases changed
    obtain ⟨-, below⟩ := every_node.mp distinct
    have guard : condition.PropertiesDistinct := below condition (by
      simp [NodeOf.subschemas_auxiliary, NodeOf.subschemas_keywords, present])
    have consequent (s : Schema) (branch : s ∈ n.consequent) : s.PropertiesDistinct := below s (by
      simp [NodeOf.subschemas_auxiliary, NodeOf.subschemas_keywords, Option.mem_def.mp branch])
    have alternative (s : Schema) (branch : s ∈ n.alternative) : s.PropertiesDistinct := below s (by
      simp [NodeOf.subschemas_auxiliary, NodeOf.subschemas_keywords, Option.mem_def.mp branch])
    refine distinct.of_step rfl fun s member => ?_
    rcases NodeOf.subschemas_unconditional member with before | rfl
    · exact Or.inl before
    · refine Or.inr (propertiesDistinct_choice [] fun s member => ?_)
      rcases List.mem_pair.mp member with rfl | rfl
      · exact propertiesDistinct_guarded guard consequent
      · exact propertiesDistinct_guarded (propertiesDistinct_negation guard) alternative

theorem propertiesDistinct_resolveNullable (distinct : (Schema.node n).PropertiesDistinct) :
    (Schema.node (Noted.ofOption n n.resolveNullable?).value).PropertiesDistinct := by
  cases changed : n.resolveNullable? with
  | none => exact distinct
  | some n' =>
    rcases NodeOf.resolveNullable_cases changed with ⟨-, rfl⟩ | ⟨-, ⟨types, -, rfl⟩ | ⟨-, ⟨-, rfl⟩ | ⟨-, rfl⟩⟩⟩
    · exact distinct.of_step rfl fun s member => Or.inl member
    · exact distinct.of_step rfl fun s member => Or.inl member
    · exact propertiesDistinct_of_none rfl fun s member => absurd member List.not_mem_nil
    · refine propertiesDistinct_choice n.annotations fun s member => ?_
      rcases List.mem_pair.mp member with rfl | rfl
      · exact distinct.of_step rfl fun s member => Or.inl member
      · exact propertiesDistinct_of_none rfl fun s member => absurd member List.not_mem_nil

theorem propertiesDistinct_redirect (moves : List Reference.Move) (distinct : schema.PropertiesDistinct) :
    (redirect moves schema).value.PropertiesDistinct := by
  refine (lowering_redirect moves).every_mapNodes NodeOf.PropertiesDistinct.mapReach (fun n before => ?_) distinct
  rw [NodeOf.redirect_value]
  exact PropertiesDistinct.of_step before rfl fun s member => Or.inl member

/-- Every pass keeps the names of properties distinct. -/
theorem propertiesDistinct_transform {pass : Pass} {transform : Schema → Noted Schema}
    (given : pass.transform? = some transform) (distinct : schema.PropertiesDistinct) :
    (transform schema).value.PropertiesDistinct := by
  have shallow := NodeOf.PropertiesDistinct.mapReach
  cases pass <;> cases given
  · exact propertiesDistinct_redirect [] distinct
  · exact lowering_completeConst.every_mapNodes shallow (fun n => propertiesDistinct_completeConst) distinct
  · exact lowering_positionalItems.every_mapNodes shallow (fun n => propertiesDistinct_positionalItems) distinct
  · exact lowering_unconditional.every_mapNodes shallow (fun n => propertiesDistinct_unconditional) distinct
  · exact lowering_resolveNullable.every_mapNodes shallow (fun n => propertiesDistinct_resolveNullable) distinct

/-- Reading makes names of properties of names of entries. -/
theorem propertiesDistinct_ofJson {value : Json} (distinct : value.KeysDistinct) : (ofJson value).PropertiesDistinct := by
  induction bound : value.size using Nat.strong_induction_on generalizing value with
  | _ size ih =>
    subst bound
    cases value with
    | object fields =>
      refine every_node.mpr ⟨fun table given => ?_, fun s member => ?_⟩
      · rw [nodeOfFields_eq] at given
        obtain ⟨inner, found, read⟩ := Option.map_eq_some_iff.mp given
        cases inner <;> cases read
        rw [Table.Distinct, tableOfFields_eq, Table.keys_mapValues]
        exact (Json.keysDistinct_object.mp (distinct.of_mem (Table.mem_of_lookup found))).1
      · obtain ⟨key, held, holds, inside⟩ := NodeOf.exists_held_of_mem member
        obtain ⟨outer, found, read⟩ := held_nodeOfFields holds
        have entry := Table.mem_of_lookup found
        obtain ⟨-, inner, -, rfl, inward, small⟩ := read.exists_enter (distinct.of_mem entry) inside
        exact ih inner.size (small.trans_lt (Json.size_lt_of_entry entry)) inward rfl
    | bool value => exact every_bool value
    | _ => exact every_malformed _

theorem PropertiesDistinct.withoutBlocks (distinct : schema.PropertiesDistinct) : schema.withoutBlocks.PropertiesDistinct := by
  cases schema with
  | node n =>
    rw [Schema.withoutBlocks, NodeOf.withoutBlocks_eq]
    exact distinct.of_step rfl fun s member => Or.inl member
  | bool value => exact distinct
  | malformed value => exact distinct

end Schema

end Schemata
