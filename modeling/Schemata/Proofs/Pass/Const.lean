import Schemata.Pass.Const
import Schemata.Proofs.Json.Equality
import Schemata.Proofs.Schema.Acceptance

namespace Schemata

theorem TypeTag.ofName?_name (tag : TypeTag) : ofName? tag.name = some tag := by cases tag <;> rfl

/-- Equal values have the type that is added for one of them. -/
theorem Json.isOfType_of_equal {value x : Json} (same : value.equal x) : x.IsOfType value.tag.name :=
  ⟨value.tag, TypeTag.ofName?_name _, hasType_of_equal same⟩

namespace NodeOf

variable {n : Node}

/-- What becomes of a node with `const`: only the absent ones of `type` and `enum` are filled in. -/
theorem completeConst_value {value : Json} (present : n.const = some value) :
    n.completeConst.value =
      { n with
        types := some (n.types.getD (.valid (.single value.tag.name)))
        enum := some (n.enum.getD (.valid [value])) } := by
  simp only [completeConst, present]

theorem completeConst_of_none (absent : n.const = none) : n.completeConst = { value := n } := by
  simp only [completeConst, absent]

/-- Where `const` is present, an absent `type` or `enum` may be filled in with what every value equal to the constant
meets anyway. -/
theorem accepts_filled {I : Interpretation} {m : NodeOf (Json → Prop)} {value x : Json} {types : Option (Slot TypeNames)}
    {enum : Option (Slot (List Json))} (present : m.const = some value)
    (sameTypes : types = m.types ∨
      m.types = none ∧ ∃ names, types = some (.valid names) ∧ value.tag.name ∈ names.names)
    (sameEnum : enum = m.enum ∨ m.enum = none ∧ ∃ values, enum = some (.valid values) ∧ value ∈ values) :
    Accepts I { m with types, enum } x ↔ m.Accepts I x := by
  have shapes : misfits { m with types, enum } = m.misfits := by
    have first : misfit "type" types = misfit "type" m.types := by
      rcases sameTypes with same | ⟨absent, names, filled, -⟩
      · rw [same]
      · rw [absent, filled]
        rfl
    have second : misfit "enum" enum = misfit "enum" m.enum := by
      rcases sameEnum with same | ⟨absent, values, filled, -⟩
      · rw [same]
      · rw [absent, filled]
        rfl
    simp only [misfits, first, second]
  refine accepts_congr rfl ⟨fun met => ?_, fun met => ?_⟩
  · exact { met with
      types := by
        rcases sameTypes with same | ⟨absent, -⟩
        · exact same ▸ met.types
        · rw [absent]
          intro names given
          cases given
      enum := by
        rcases sameEnum with same | ⟨absent, -⟩
        · exact same ▸ met.enum
        · rw [absent]
          intro values given
          cases given
      misshapen := shapes ▸ met.misshapen }
  · have same : value.equal x := met.const value present
    exact { met with
      types := by
        rcases sameTypes with unchanged | ⟨-, names, filled, inside⟩
        · exact unchanged ▸ met.types
        · rintro names' given
          cases filled.symm.trans given
          exact ⟨_, inside, Json.isOfType_of_equal same⟩
      enum := by
        rcases sameEnum with unchanged | ⟨-, values, filled, inside⟩
        · exact unchanged ▸ met.enum
        · rintro values' given
          cases filled.symm.trans given
          exact ⟨value, inside, same⟩
      misshapen := shapes ▸ met.misshapen }

theorem accepts_completed {I : Interpretation} {m : NodeOf (Json → Prop)} {value x : Json}
    (present : m.const = some value) :
    Accepts I { m with
      types := some (m.types.getD (.valid (.single value.tag.name)))
      enum := some (m.enum.getD (.valid [value])) } x ↔ m.Accepts I x := by
  refine accepts_filled present ?_ ?_
  · cases m.types with
    | none => exact Or.inr ⟨rfl, _, rfl, List.mem_singleton_self _⟩
    | some slot => exact Or.inl rfl
  · cases m.enum with
    | none => exact Or.inr ⟨rfl, _, rfl, List.mem_singleton_self _⟩
    | some slot => exact Or.inl rfl

/-- The completed node accepts what the node with `const` accepts. -/
theorem accepts_completeConst (I : Interpretation) (n : Node) (x : Json) :
    (Schema.node n.completeConst.value).Accepts I x ↔ (Schema.node n).Accepts I x := by
  cases present : n.const with
  | none => rw [completeConst_of_none present]
  | some value =>
    rw [completeConst_value present, Schema.accepts_node, Schema.accepts_node]
    exact accepts_completed (m := n.map (Schema.Accepts I)) present

end NodeOf

namespace Schema

theorem lowering_completeConst : Lowering NodeOf.completeConst := by
  intro n s member
  cases present : n.const with
  | none =>
    rw [NodeOf.completeConst_of_none present] at member
    exact height_le_nodeHeight member
  | some value =>
    rw [NodeOf.completeConst_value present] at member
    exact height_le_nodeHeight (n := n) member

/-- The const pass changes no meaning: whatever references, other keywords and values of the wrong shape are taken to
ask, every schema accepts the values that it accepted before. -/
theorem accepts_normalizeConst (I : Interpretation) (schema : Schema) (x : Json) :
    schema.normalizeConst.value.Accepts I x ↔ schema.Accepts I x :=
  lowering_completeConst.accepts_mapNodes (fun n x => NodeOf.accepts_completeConst I n x) schema x

end Schema

end Schemata
