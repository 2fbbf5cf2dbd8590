import Schemata.Pass.Conditional
import Schemata.Proofs.Schema.Acceptance

namespace Schemata

namespace Schema

variable {I : Interpretation} {x : Json}

theorem accepts_everyOf (members : List Schema) :
    (Schema.node (NodeOf.everyOf members)).Accepts I x ↔ ∀ s ∈ members, s.Accepts I x := by
  rw [accepts_node]
  exact (NodeOf.accepts_members (members.map (Accepts I))).trans List.forall_mem_map

theorem accepts_negation (schema : Schema) :
    (Schema.node (NodeOf.negation schema)).Accepts I x ↔ ¬ schema.Accepts I x := by
  rw [accepts_node]
  constructor
  · intro (outside : NodeOf.Meets _ _ _)
    exact outside.not _ rfl
  · intro outside
    exact show NodeOf.Meets _ _ _ from
      { NodeOf.meets_empty I x with
        not := by
          rintro _ ⟨⟩
          exact outside }

theorem accepts_guarded (condition : Schema) (branch : Option Schema) :
    (NodeOf.guarded condition branch).Accepts I x ↔
      condition.Accepts I x ∧ ∀ s, branch = some s → s.Accepts I x := by
  cases branch with
  | none => simp [NodeOf.guarded]
  | some branch => simp [NodeOf.guarded, accepts_everyOf]

/-- The choice is accepted where the condition decides for a branch that accepts. -/
theorem accepts_branches (condition : Schema) (consequent alternative : Option Schema) :
    (Schema.node (NodeOf.branches condition consequent alternative)).Accepts I x ↔
      (condition.Accepts I x → ∀ s, consequent = some s → s.Accepts I x) ∧
      (¬ condition.Accepts I x → ∀ s, alternative = some s → s.Accepts I x) := by
  have choice : (Schema.node (NodeOf.branches condition consequent alternative)).Accepts I x ↔
      (NodeOf.guarded condition consequent).Accepts I x ∨
      (NodeOf.guarded (.node (NodeOf.negation condition)) alternative).Accepts I x := by
    rw [accepts_node]
    constructor
    · intro (met : NodeOf.Meets _ _ _)
      have either := met.anyOf _ rfl
      simpa using either
    · intro one
      exact show NodeOf.Meets _ _ _ from
        { NodeOf.meets_empty I x with
          anyOf := by
            rintro _ ⟨⟩
            simpa using one }
  rw [choice, accepts_guarded, accepts_guarded, accepts_negation]
  by_cases holds : condition.Accepts I x <;> simp [holds]

/-- What `allOf` asks, said of the schemas in it. -/
theorem meets_allOf (n : Node) :
    (∀ members, (n.map (Accepts I)).allOf = some (.valid members) → ∀ member ∈ members, member x) ↔
      ∀ s ∈ NodeOf.listed n.allOf, s.Accepts I x := by
  change (∀ members, n.allOf.map (Slot.map (List.map (Accepts I))) = some (.valid members) → _) ↔ _
  rcases n.allOf with - | (schemas | value) <;> simp [NodeOf.listed, Slot.map]

/-- What `then` asks, said of the schemas. -/
theorem meets_consequent (n : Node) :
    (∀ condition branch, (n.map (Accepts I)).condition = some condition →
      (n.map (Accepts I)).consequent = some branch → condition x → branch x) ↔
      ∀ condition, n.condition = some condition →
        condition.Accepts I x → ∀ s, n.consequent = some s → s.Accepts I x := by
  change (∀ condition branch, n.condition.map (Accepts I) = some condition →
    n.consequent.map (Accepts I) = some branch → _) ↔ _
  cases n.condition <;> cases n.consequent <;> simp

/-- What `else` asks, said of the schemas. -/
theorem meets_alternative (n : Node) :
    (∀ condition branch, (n.map (Accepts I)).condition = some condition →
      (n.map (Accepts I)).alternative = some branch → ¬ condition x → branch x) ↔
      ∀ condition, n.condition = some condition →
        ¬ condition.Accepts I x → ∀ s, n.alternative = some s → s.Accepts I x := by
  change (∀ condition branch, n.condition.map (Accepts I) = some condition →
    n.alternative.map (Accepts I) = some branch → _) ↔ _
  cases n.condition <;> cases n.alternative <;> simp

end Schema

namespace NodeOf

variable {n n' : Node}

/-- What becomes of a node with a conditional, and when. -/
theorem unconditional_cases (changed : n.unconditional? = some n') :
    ∃ condition, n.condition = some condition ∧ misfit "allOf" n.allOf = [] ∧
      n' = { n with
        allOf := some (.valid (listed n.allOf ++ [.node (branches condition n.consequent n.alternative)]))
        condition := none, consequent := none, alternative := none } := by
  cases present : n.condition with
  | none => simp [unconditional?, present] at changed
  | some condition =>
    rcases members : n.allOf with - | (schemas | value)
    · refine ⟨condition, rfl, rfl, ?_⟩
      simpa [unconditional?, present, members, listed] using changed.symm
    · refine ⟨condition, rfl, rfl, ?_⟩
      simpa [unconditional?, present, members, listed, Slot.valid?] using changed.symm
    · simp [unconditional?, present, members] at changed

theorem misfits_unconditional (changed : n.unconditional? = some n') : n'.misfits = n.misfits := by
  obtain ⟨condition, -, wellFormed, rfl⟩ := unconditional_cases changed
  simp only [misfits, misfit_valid, wellFormed]

/-- The copies of the condition stand no deeper than the levels that the height counts above a conditional. -/
theorem height_branches_le {condition : Schema} {consequent alternative : Option Schema} {levels : Nat}
    (first : Schema.raisedHeight 3 (some condition) ≤ levels) (second : Schema.raisedHeight 2 consequent ≤ levels)
    (third : Schema.raisedHeight 2 alternative ≤ levels) :
    (Schema.node (branches condition consequent alternative)).height ≤ levels := by
  cases consequent <;> cases alternative <;>
    simp [Schema.height, Schema.nodeHeight, Schema.flagHeight, Schema.propertiesHeight, Schema.itemsHeight,
      Schema.raisedHeight, Schema.slotHeight, Schema.listHeight, branches, guarded, negation, everyOf]
      at first second third ⊢ <;>
    omega

theorem height_unconditional (changed : n.unconditional? = some n') :
    ∀ s ∈ n'.subschemas .auxiliary, s.height ≤ Schema.nodeHeight n := by
  intro s member
  obtain ⟨condition, present, -, rfl⟩ := unconditional_cases changed
  have fits := Schema.within_nodeHeight n
  have choice := height_branches_le (present ▸ fits.condition) fits.consequent fits.alternative
  have members := fits.allOf
  rw [Schema.slotHeight_eq] at members
  refine Schema.Within.height_le ?_ member
  exact { fits with
    allOf := by
      simp only [Schema.slotHeight, Schema.listHeight_append, Schema.listHeight]
      omega
    condition := Nat.zero_le _
    consequent := Nat.zero_le _
    alternative := Nat.zero_le _ }

/-- The rewritten node accepts what the node with the conditional accepts. -/
theorem accepts_unconditional {I : Interpretation} {x : Json} (changed : n.unconditional? = some n') :
    (Schema.node n').Accepts I x ↔ (Schema.node n).Accepts I x := by
  obtain ⟨condition, present, wellFormed, rfl⟩ := unconditional_cases changed
  rw [Schema.accepts_node, Schema.accepts_node]
  refine accepts_congr rfl ⟨fun met => ?_, fun met => ?_⟩
  · have every := (Schema.meets_allOf _).mp met.allOf
    obtain ⟨consequent, alternative⟩ := (Schema.accepts_branches ..).mp
      (every _ (List.mem_append_right _ (List.mem_singleton_self _)))
    exact { met with
      allOf := (Schema.meets_allOf n).mpr fun s member => every s (List.mem_append_left _ member)
      consequent := (Schema.meets_consequent n).mpr fun c same => by
        cases present.symm.trans same
        exact consequent
      alternative := (Schema.meets_alternative n).mpr fun c same => by
        cases present.symm.trans same
        exact alternative
      misshapen := by
        have kept := met.misshapen
        rwa [misfits_map, misfits_unconditional changed, ← misfits_map (Schema.Accepts I)] at kept }
  · have every := (Schema.meets_allOf n).mp met.allOf
    have consequent := (Schema.meets_consequent n).mp met.consequent condition present
    have alternative := (Schema.meets_alternative n).mp met.alternative condition present
    exact { met with
      allOf := (Schema.meets_allOf _).mpr fun s member => by
        rcases List.mem_append.mp member with before | choice
        · exact every s before
        · rw [List.mem_singleton.mp choice, Schema.accepts_branches]
          exact ⟨consequent, alternative⟩
      consequent := nofun
      alternative := nofun
      misshapen := by
        have kept := met.misshapen
        rwa [misfits_map, ← misfits_unconditional changed, ← misfits_map (Schema.Accepts I)] at kept }

end NodeOf

namespace Schema

theorem lowering_unconditional : Lowering fun n => Noted.ofOption n n.unconditional? :=
  lowering_ofOption fun _ _ changed => NodeOf.height_unconditional changed

/-- The conditional pass changes no meaning: whatever references, other keywords and values of the wrong shape are
taken to ask, every schema accepts the values that it accepted before. -/
theorem accepts_normalizeConditionals (I : Interpretation) (schema : Schema) (x : Json) :
    schema.normalizeConditionals.value.Accepts I x ↔ schema.Accepts I x := by
  refine lowering_unconditional.accepts_mapNodes (fun n x => ?_) schema x
  cases changed : n.unconditional? with
  | none => exact Iff.rfl
  | some n' => exact NodeOf.accepts_unconditional changed

end Schema

end Schemata
