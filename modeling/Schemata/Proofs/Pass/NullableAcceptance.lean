import Schemata.Proofs.Pass.Const
import Schemata.Proofs.Pass.Nullable

namespace Schemata

namespace NodeOf

/-- What a node asks after its flag is resolved, where the subschemas are given by what they accept. -/
def Resolved (I : Interpretation) (n : NodeOf (Json → Prop)) (x : Json) : Prop :=
  match n.nullable, n.types with
  | some (.valid true), some (.valid types) =>
    Accepts I { n with types := some (.valid (withNull types)), enum := n.enum.map enumWithNull } x
  | some (.valid true), none =>
    (∀ field ∈ n.extra, onlyDescribes field.1 → I.keyword field.1 field.2 x) ∧
      (x.IsOfType "null" ∨ Accepts I { n with extra := n.extra.filter fun (key, _) => !onlyDescribes key } x)
  | _, _ => n.Accepts I x

variable {I : Interpretation} {m : NodeOf (Json → Prop)} {x : Json}

theorem resolved_typed {names : TypeNames} (flag : m.nullable = some (.valid true))
    (typed : m.types = some (.valid names)) :
    m.Resolved I x ↔
      Accepts I { m with types := some (.valid (withNull names)), enum := m.enum.map enumWithNull } x := by
  simp only [Resolved, flag, typed]

theorem resolved_untyped (flag : m.nullable = some (.valid true)) (untyped : m.types = none) :
    m.Resolved I x ↔
      (∀ field ∈ m.extra, onlyDescribes field.1 → I.keyword field.1 field.2 x) ∧
        (x.IsOfType "null" ∨ Accepts I { m with extra := m.extra.filter fun (key, _) => !onlyDescribes key } x) := by
  simp only [Resolved, flag, untyped]

/-- Without the flag, or next to a `type` of the wrong shape, nothing is resolved. -/
theorem resolved_plain
    (plain : m.nullable = some (.valid true) → ∃ value, m.types = some (.malformed value)) :
    m.Resolved I x ↔ m.Accepts I x := by
  unfold Resolved
  split
  · rename_i flag typed
    obtain ⟨value, malformed⟩ := plain flag
    cases typed.symm.trans malformed
  · rename_i flag untyped
    obtain ⟨value, malformed⟩ := plain flag
    cases untyped.symm.trans malformed
  · exact Iff.rfl

/-- The flag itself asks nothing. -/
theorem accepts_withoutNullable {flag : Bool} (given : m.nullable = some (.valid flag)) :
    Accepts I { m with nullable := none } x ↔ m.Accepts I x := by
  have shapes : misfits { m with nullable := none } = m.misfits := by
    simp only [misfits, given]
    rfl
  refine accepts_congr rfl ⟨fun met => ?_, fun met => ?_⟩
  · exact { met with misshapen := shapes ▸ met.misshapen }
  · exact { met with misshapen := shapes ▸ met.misshapen }

theorem accepts_nullType : Accepts I (nullType.map (Schema.Accepts I)) x ↔ x.IsOfType "null" := by
  constructor
  · intro (met : Meets _ _ _)
    obtain ⟨name, named, holds⟩ := met.types _ rfl
    rwa [List.mem_singleton.mp named] at holds
  · intro holds
    exact show Meets _ _ _ from
      { meets_empty I x with
        types := by
          rintro _ ⟨⟩
          exact ⟨_, List.mem_singleton_self _, holds⟩ }

theorem accepts_entries (extra : List (String × Json)) :
    Accepts I { extra } x ↔ ∀ field ∈ extra, I.keyword field.1 field.2 x := by
  constructor
  · intro (met : Meets _ _ _)
    exact met.extra
  · intro entries
    exact show Meets _ _ _ from { meets_empty I x with additionalProperties := nofun, extra := entries }

theorem accepts_choice (members : List (Json → Prop)) (extra : List (String × Json)) :
    Accepts I { anyOf := some (.valid members), extra } x ↔
      (∀ field ∈ extra, I.keyword field.1 field.2 x) ∧ ∃ member ∈ members, member x := by
  constructor
  · intro (met : Meets _ _ _)
    exact ⟨met.extra, met.anyOf _ rfl⟩
  · rintro ⟨entries, one⟩
    exact show Meets _ _ _ from
      { meets_empty I x with
        additionalProperties := nofun
        anyOf := by
          rintro _ ⟨⟩
          exact one
        extra := entries }

theorem eq_empty_of_isEmpty {n : Node} (bare : n.isEmpty) : n = empty := by
  obtain ⟨⟩ := n
  simpa [isEmpty, empty, and_assoc] using bare

end NodeOf

namespace Schema

variable {I : Interpretation} {x : Json}

/-- What a schema accepts after the pass. -/
def AcceptsResolved (I : Interpretation) (schema : Schema) (x : Json) : Prop := schema.normalizeNullable.value.Accepts I x

theorem acceptsResolved_node (I : Interpretation) (n : Node) (x : Json) :
    (Schema.node n).AcceptsResolved I x ↔
      ((Noted.ofOption n n.resolveNullable?).value.map (AcceptsResolved I)).Accepts I x := by
  have below (m : Node) : (m.mapReach .auxiliary fun s => s.normalizeNullable.value).map (Accepts I) =
      m.map (AcceptsResolved I) :=
    NodeOf.mapBoth_mapBoth _ _ (Accepts I) (Accepts I) m
  rw [AcceptsResolved, normalizeNullable, lowering_resolveNullable.mapNodes_value, accepts_node]
  exact iff_of_eq (congrArg (NodeOf.Accepts I · x) (below _))

theorem acceptsResolved_of_none {n : Node} (unchanged : n.resolveNullable? = none) :
    (Schema.node n).AcceptsResolved I x ↔ (n.map (AcceptsResolved I)).Accepts I x := by
  rw [acceptsResolved_node, unchanged, Noted.ofOption]

/-- What a node without `type` accepts after its flag is resolved: null, or what it asked for. -/
theorem acceptsResolved_untyped {n : Node} (flag : n.nullable = some (.valid true)) (untyped : n.types = none) :
    (Schema.node n).AcceptsResolved I x ↔
      (∀ field ∈ n.annotations, I.keyword field.1 field.2 x) ∧
        (x.IsOfType "null" ∨ (n.withoutFlag.map (AcceptsResolved I)).Accepts I x) := by
  have admitted : n.resolveNullable? = n.admitNull? := by simp only [NodeOf.resolveNullable?, flag]
  rw [acceptsResolved_node, admitted, NodeOf.admitNull_of_untyped untyped]
  by_cases bare : n.withoutFlag.isEmpty
  · have everything : (n.withoutFlag.map (AcceptsResolved I)).Accepts I x := by
      rw [NodeOf.eq_empty_of_isEmpty bare]
      exact NodeOf.meets_empty I x
    rw [if_pos bare]
    exact (NodeOf.accepts_entries n.annotations).trans (by simp only [everything, or_true, and_true])
  · have inner : (Schema.node n.withoutFlag).AcceptsResolved I x ↔
        (n.withoutFlag.map (AcceptsResolved I)).Accepts I x := acceptsResolved_of_none rfl
    have null : (Schema.node NodeOf.nullType).AcceptsResolved I x ↔ x.IsOfType "null" :=
      (acceptsResolved_of_none rfl).trans NodeOf.accepts_nullType
    rw [if_neg bare]
    refine (NodeOf.accepts_choice [(Schema.node n.withoutFlag).AcceptsResolved I,
      (Schema.node NodeOf.nullType).AcceptsResolved I] n.annotations).trans ?_
    simp only [List.mem_cons, List.not_mem_nil, or_false, exists_eq_or_imp, exists_eq_left, inner, null]
    rw [or_comm]

/-- What a node accepts after the pass, from what its subschemas accept after the pass. -/
theorem acceptsResolved_iff (I : Interpretation) (n : Node) (x : Json) :
    (Schema.node n).AcceptsResolved I x ↔ (n.map (AcceptsResolved I)).Resolved I x := by
  have still (unchanged : n.resolveNullable? = none)
      (plain : n.nullable = some (.valid true) → ∃ value, n.types = some (.malformed value)) :
      (Schema.node n).AcceptsResolved I x ↔ (n.map (AcceptsResolved I)).Resolved I x :=
    (acceptsResolved_of_none unchanged).trans (NodeOf.resolved_plain plain).symm
  rcases flag : n.nullable with - | ((- | -) | value)
  · exact still (by simp only [NodeOf.resolveNullable?, flag]) (by simp [flag])
  · have dropped : n.resolveNullable? = some { n with nullable := none } := by
      simp only [NodeOf.resolveNullable?, flag]
    have plain : (n.map (AcceptsResolved I)).Resolved I x ↔ (n.map (AcceptsResolved I)).Accepts I x :=
      NodeOf.resolved_plain fun given => by cases flag.symm.trans given
    rw [acceptsResolved_node, dropped, plain]
    exact @NodeOf.accepts_withoutNullable I (n.map (AcceptsResolved I)) x _ flag
  · rcases types : n.types with - | (names | value)
    · have untyped : (n.map (AcceptsResolved I)).types = none := types
      rw [acceptsResolved_untyped flag types, NodeOf.resolved_untyped flag untyped]
      refine and_congr ?_ (or_congr_right ?_)
      · simp only [NodeOf.annotations, List.mem_filter, and_imp]
        exact Iff.rfl
      · exact @NodeOf.accepts_withoutNullable I
          { n.map (AcceptsResolved I) with extra := n.extra.filter fun (key, _) => !onlyDescribes key } x _ flag
    · have typed : (n.map (AcceptsResolved I)).types = some (.valid names) := types
      have joined : n.resolveNullable? = some { n with
          types := some (.valid (NodeOf.withNull names)), enum := n.enum.map NodeOf.enumWithNull, nullable := none } := by
        simp only [NodeOf.resolveNullable?, NodeOf.admitNull?, flag, types]
      rw [acceptsResolved_node, joined, NodeOf.resolved_typed flag typed]
      exact @NodeOf.accepts_withoutNullable I { n.map (AcceptsResolved I) with
        types := some (.valid (NodeOf.withNull names)), enum := n.enum.map NodeOf.enumWithNull } x _ flag
    · exact still (by simp only [NodeOf.resolveNullable?, NodeOf.admitNull?, flag, types]) fun _ => ⟨value, types⟩
  · exact still (by simp only [NodeOf.resolveNullable?, flag]) (by simp [flag])

end Schema

end Schemata
