import Schemata.Proofs.Pass.NullableAcceptance

namespace Schemata

namespace NodeOf

/-- A constant with the flag has a type of its own. -/
def FlagTyped (n : Node) : Prop := n.const.isSome → n.nullable = some (.valid true) → n.types.isSome

/-- A value of the list is still there after null has joined. -/
theorem mem_enumWithNull {values : List Json} {value : Json} (member : value ∈ values) :
    ∃ widened, enumWithNull (.valid values) = .valid widened ∧ value ∈ widened := by
  refine ⟨_, rfl, ?_⟩
  split
  · exact member
  · exact List.mem_append_left _ member

variable {I : Interpretation} {m : NodeOf (Json → Prop)} {value x : Json}

/-- Completing a constant that has a type, or no flag, changes nothing about the resolved node. -/
theorem resolved_completed (present : m.const = some value)
    (typed : m.nullable = some (.valid true) → m.types.isSome) :
    Resolved I { m with
      types := some (m.types.getD (.valid (.single value.tag.name)))
      enum := some (m.enum.getD (.valid [value])) } x ↔ m.Resolved I x := by
  generalize whole : ({ m with
    types := some (m.types.getD (.valid (.single value.tag.name)))
    enum := some (m.enum.getD (.valid [value])) } : NodeOf (Json → Prop)) = completed
  have same : completed.Accepts I x ↔ m.Accepts I x := whole ▸ accepts_completed present
  have flagged : completed.nullable = m.nullable := whole ▸ rfl
  by_cases flag : m.nullable = some (.valid true)
  · obtain ⟨slot, types⟩ := Option.isSome_iff_exists.mp (typed flag)
    have kept : completed.types = some slot := by
      rw [← whole, types, Option.getD_some]
    cases slot with
    | malformed other => rw [resolved_plain fun _ => ⟨other, kept⟩, resolved_plain fun _ => ⟨other, types⟩, same]
    | valid names =>
      rw [resolved_typed (flagged.trans flag) kept, resolved_typed flag types, ← whole]
      -- the list that is filled in holds the constant also after null has joined
      refine accepts_filled (m := { m with types := some (.valid (withNull names)), enum := m.enum.map enumWithNull })
        present (Or.inl rfl) ?_
      cases enum : m.enum with
      | some slot => exact Or.inl rfl
      | none =>
        obtain ⟨values, widened, inside⟩ := mem_enumWithNull (List.mem_singleton_self value)
        exact Or.inr ⟨rfl, values, congrArg some widened, inside⟩
  · rw [resolved_plain fun given => absurd (flagged.symm.trans given) flag, resolved_plain fun given => absurd given flag,
      same]

end NodeOf

namespace Schema

variable {I : Interpretation} {schema : Schema} {x : Json}

theorem acceptsResolved_normalizeConst (typed : schema.Every .keywords NodeOf.FlagTyped) :
    schema.normalizeConst.value.AcceptsResolved I x ↔ schema.AcceptsResolved I x := by
  induction schema using lowering_completeConst.induction generalizing x with
  | bool value => rw [normalizeConst, mapNodes_bool, Noted.pure_value]
  | malformed value => rw [normalizeConst, mapNodes_malformed, Noted.pure_value]
  | node n ih =>
    obtain ⟨here, below⟩ := every_node.mp typed
    have children : n.completeConst.value.subschemas .keywords = n.subschemas .keywords := by
      cases present : n.const with
      | none => rw [NodeOf.completeConst_of_none present]
      | some value =>
        rw [NodeOf.completeConst_value present]
        rfl
    -- the walk of the const pass does not enter `not` and `additionalItems`
    have images : (n.completeConst.value.mapReach .keywords fun s => s.normalizeConst.value).map (AcceptsResolved I) =
        n.completeConst.value.map (AcceptsResolved I) := by
      refine (NodeOf.mapBoth_mapBoth _ id _ _ _).trans (NodeOf.mapBoth_congr (fun s member => ?_) fun _ _ => rfl)
      funext x
      exact propext (ih s (NodeOf.mem_auxiliary_of_mem member) (below s (children ▸ member)))
    rw [normalizeConst, lowering_completeConst.mapNodes_value, acceptsResolved_iff]
    change NodeOf.Resolved I (NodeOf.map (AcceptsResolved I) (n.completeConst.value.mapReach .keywords
      fun s => s.normalizeConst.value)) x ↔ _
    rw [images, acceptsResolved_iff]
    cases present : n.const with
    | none => rw [NodeOf.completeConst_of_none present]
    | some value =>
      rw [NodeOf.completeConst_value present]
      exact NodeOf.resolved_completed (m := n.map (AcceptsResolved I)) present
        (here (Option.isSome_of_eq_some present))

/-- A flagged constant without a type of its own: by itself the flag admits null, after the const pass it does not. -/
theorem null_of_untyped {n : Node} {value : Json} (present : n.const = some value) (other : value ≠ .null)
    (flag : n.nullable = some (.valid true)) (untyped : n.types = none)
    (own : ∀ text, n.reference ≠ some (.valid text))
    (described : ∀ field ∈ n.annotations, I.keyword field.1 field.2 .null) :
    (Schema.node n).AcceptsResolved I .null ∧ ¬ (normalizeConst (.node n)).value.AcceptsResolved I .null := by
  constructor
  · have null : Json.null.IsOfType "null" := ⟨.null, rfl, rfl⟩
    exact (acceptsResolved_untyped flag untyped).mpr ⟨described, Or.inl null⟩
  · intro admitted
    rw [normalizeConst, lowering_completeConst.mapNodes_value, NodeOf.completeConst_value present, untyped,
      acceptsResolved_iff, NodeOf.resolved_typed flag rfl] at admitted
    have met := (NodeOf.accepts_iff_meets own).mp admitted
    have same : value.equal .null := met.const value present
    cases value with
    | null => exact other rfl
    | _ => simp [Json.equal] at same

/-- Running the const pass first does not change what the nullable pass makes of a schema, as long as every constant
with the flag has a type of its own. Where it has none, null is lost. -/
theorem accepts_normalizeNullable_normalizeConst (I : Interpretation) (schema : Schema) :
    (schema.Every .keywords NodeOf.FlagTyped → ∀ x,
      schema.normalizeConst.value.normalizeNullable.value.Accepts I x ↔ schema.normalizeNullable.value.Accepts I x) ∧
    ∀ n value, schema = .node n → n.const = some value → value ≠ .null → n.nullable = some (.valid true) →
      n.types = none → (∀ text, n.reference ≠ some (.valid text)) →
      (∀ field ∈ n.annotations, I.keyword field.1 field.2 .null) →
      schema.normalizeNullable.value.Accepts I .null ∧
        ¬ schema.normalizeConst.value.normalizeNullable.value.Accepts I .null := by
  constructor
  · intro typed x
    exact acceptsResolved_normalizeConst typed
  · rintro n value rfl present other flag untyped own described
    exact null_of_untyped present other flag untyped own described

/-- A flagged constant with its type keeps what it accepts; without the type, null is accepted or not. -/
theorem accepts_normalizeNullable_normalizeConst_on (I : Interpretation) :
    let on : Node := { const := some (.string "on"), nullable := some (.valid true) }
    let typed := Schema.node { on with types := some (.valid (.single "string")) }
    (∀ x, typed.normalizeConst.value.normalizeNullable.value.Accepts I x ↔ typed.normalizeNullable.value.Accepts I x) ∧
      (Schema.node on).normalizeNullable.value.Accepts I .null ∧
      ¬ (Schema.node on).normalizeConst.value.normalizeNullable.value.Accepts I .null := by
  intro on typed
  have every : typed.Every .keywords NodeOf.FlagTyped := by
    refine every_node.mpr ⟨fun _ _ => rfl, fun s member => ?_⟩
    cases member
  refine ⟨(accepts_normalizeNullable_normalizeConst I typed).1 every, ?_⟩
  refine (accepts_normalizeNullable_normalizeConst I (.node on)).2 on _ rfl rfl (by nofun) rfl rfl (by nofun) ?_
  intro field member
  cases member

end Schema

end Schemata
