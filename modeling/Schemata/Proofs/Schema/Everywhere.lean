import Schemata.Proofs.Schema.Descent

namespace Schemata

namespace Schema

/-- Every node that a walk meets has the property. -/
def Every (reach : Reach) (P : Node → Prop) (schema : Schema) : Prop := ∀ n ∈ schema.nodes reach, P n

/-- The step leaves the node as it is and reports nothing. -/
def Settled (step : Node → Noted Node) (n : Node) : Prop := (step n).value = n ∧ (step n).changed = false

/-- A step that reports no change leaves the node as it is. -/
def Honest (step : Node → Noted Node) : Prop := ∀ n, (step n).changed = false → (step n).value = n

variable {reach reach' : Reach} {P : Node → Prop} {step : Node → Noted Node}

theorem every_bool (value : Bool) : (Schema.bool value).Every reach P := by
  simp only [Every, nodes_bool, List.not_mem_nil, false_implies, implies_true]

theorem every_malformed (value : Json) : (Schema.malformed value).Every reach P := by
  simp only [Every, nodes_malformed, List.not_mem_nil, false_implies, implies_true]

theorem every_node {n : Node} :
    (Schema.node n).Every reach P ↔ P n ∧ ∀ s ∈ n.subschemas reach, s.Every reach P := by
  simp only [Every, nodes_node, List.forall_mem_cons, List.mem_flatMap]
  refine and_congr_right fun _ => ⟨?_, ?_⟩
  · intro every s member n inside
    exact every n ⟨s, member, inside⟩
  · rintro every n ⟨s, member, inside⟩
    exact every s member n inside

/-- A property that replacing the subschemas keeps, and that the step keeps together with the subschemas it leaves, is
kept by the walk, whichever of the two reaches further. -/
theorem Lowering.every_mapNodes (lowering : Lowering step)
    (shallow : ∀ reach f n, P n → P (n.mapReach reach f))
    (keeps : ∀ n, (Schema.node n).Every reach' P → (Schema.node (step n).value).Every reach' P) {schema : Schema}
    (every : schema.Every reach' P) : (mapNodes reach step schema).value.Every reach' P := by
  induction schema using lowering.induction with
  | bool value => exact every_bool value
  | malformed value => exact every_malformed value
  | node n ih =>
    obtain ⟨here, below⟩ := every_node.mp (keeps n every)
    rw [lowering.mapNodes_value, every_node]
    refine ⟨shallow _ _ _ here, fun t member => ?_⟩
    obtain ⟨s, inside, rfl | rfl⟩ := NodeOf.mem_subschemas_mapReach member
    · exact ih s (NodeOf.mem_auxiliary_of_mem inside) (below s inside)
    · exact below t inside

/-- A property that the step establishes is established by the walk, as far as it reaches. -/
theorem Lowering.every_of_step (lowering : Lowering step) (shallow : ∀ reach f n, P n → P (n.mapReach reach f))
    (establishes : ∀ n, P (step n).value) (schema : Schema) : (mapNodes reach step schema).value.Every reach P := by
  induction schema using lowering.induction with
  | bool value => exact every_bool value
  | malformed value => exact every_malformed value
  | node n ih =>
    rw [lowering.mapNodes_value, every_node]
    refine ⟨shallow _ _ _ (establishes n), fun t member => ?_⟩
    rw [NodeOf.subschemas_mapReach] at member
    obtain ⟨s, inside, rfl⟩ := List.mem_map.mp member
    exact ih s (NodeOf.mem_auxiliary_of_mem inside)

/-- A walk over settled nodes changes nothing and reports nothing. -/
theorem Lowering.mapNodes_of_settled (lowering : Lowering step) {schema : Schema}
    (settled : schema.Every reach (Settled step)) :
    (mapNodes reach step schema).value = schema ∧ (mapNodes reach step schema).changed = false := by
  induction schema using lowering.induction with
  | bool value => simp
  | malformed value => simp
  | node n ih =>
    obtain ⟨⟨same, unchanged⟩, below⟩ := every_node.mp settled
    rw [same] at ih
    rw [lowering.mapNodes_value, lowering.mapNodes_changed, same, unchanged]
    constructor
    · rw [NodeOf.mapReach_eq_self fun s member => (ih s (NodeOf.mem_auxiliary_of_mem member) (below s member)).1]
    · rw [Bool.false_or, List.any_eq_false]
      intro s member
      rw [(ih s (NodeOf.mem_auxiliary_of_mem member) (below s member)).2]
      exact Bool.false_ne_true

/-- Without a report from any node, the walk returns the schema it was given. -/
theorem Lowering.mapNodes_of_unchanged (lowering : Lowering step) (honest : Honest step) {schema : Schema}
    (unchanged : (mapNodes reach step schema).changed = false) : (mapNodes reach step schema).value = schema := by
  refine (lowering.mapNodes_of_settled ?_).1
  induction schema using lowering.induction with
  | bool value => exact every_bool value
  | malformed value => exact every_malformed value
  | node n ih =>
    rw [lowering.mapNodes_changed, Bool.or_eq_false_iff, List.any_eq_false] at unchanged
    obtain ⟨here, below⟩ := unchanged
    have same : (step n).value = n := honest n here
    rw [same] at ih below
    refine every_node.mpr ⟨⟨same, here⟩, fun s member => ?_⟩
    exact ih s (NodeOf.mem_auxiliary_of_mem member) (Bool.eq_false_iff.mpr (below s member))

end Schema

end Schemata
