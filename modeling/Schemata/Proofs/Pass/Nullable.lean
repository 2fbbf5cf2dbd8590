import Schemata.Pass.Nullable
import Schemata.Proofs.Schema.Everywhere

namespace Schemata

namespace NodeOf

variable {n n' : Node}

/-- What the node asks for apart from null. -/
def withoutFlag (n : Node) : Node :=
  { n with nullable := none, extra := n.extra.filter fun (key, _) => !onlyDescribes key }

/-- The entries of the node that stay outside the choice. -/
def annotations (n : Node) : List (String × Json) := n.extra.filter fun (key, _) => onlyDescribes key

theorem admitNull_of_untyped (untyped : n.types = none) :
    n.admitNull? = if n.withoutFlag.isEmpty then some { extra := n.annotations } else
      some { anyOf := some (.valid [.node n.withoutFlag, .node nullType]), extra := n.annotations } := by
  unfold admitNull?
  split
  · rename_i malformed
    cases untyped.symm.trans malformed
  · rename_i given
    cases untyped.symm.trans given
  · rfl

/-- Three things can become of a flag: it is dropped, null joins the types, or the node becomes a choice. A node that
asks for nothing but its annotations becomes the choice between everything and null, which is everything. -/
theorem resolveNullable_cases (changed : n.resolveNullable? = some n') :
    n.nullable = some (.valid false) ∧ n' = { n with nullable := none } ∨
    n.nullable = some (.valid true) ∧ (
      (∃ types, n.types = some (.valid types) ∧
        n' = { n with types := some (.valid (withNull types)), enum := n.enum.map enumWithNull, nullable := none }) ∨
      n.types = none ∧ (n.withoutFlag.isEmpty ∧ n' = { extra := n.annotations } ∨
        ¬ n.withoutFlag.isEmpty ∧
          n' = { anyOf := some (.valid [.node n.withoutFlag, .node nullType]), extra := n.annotations })) := by
  unfold resolveNullable? at changed
  split at changed
  · rename_i flag
    exact Or.inl ⟨flag, (Option.some.inj changed).symm⟩
  · rename_i flag
    refine Or.inr ⟨flag, ?_⟩
    rcases given : n.types with - | (types | value)
    · refine Or.inr ⟨rfl, ?_⟩
      rw [admitNull_of_untyped given] at changed
      by_cases bare : n.withoutFlag.isEmpty
      · rw [if_pos bare] at changed
        exact Or.inl ⟨bare, (Option.some.inj changed).symm⟩
      · rw [if_neg bare] at changed
        exact Or.inr ⟨bare, (Option.some.inj changed).symm⟩
    · simp only [admitNull?, given, Option.some.injEq] at changed
      exact Or.inl ⟨types, rfl, changed.symm⟩
    · simp only [admitNull?, given] at changed
      cases changed
  · cases changed

theorem subschemas_choice (reach : Reach) (members : List Schema) (extra : List (String × Json)) :
    subschemas reach ({ anyOf := some (.valid members), extra } : Node) = members := by
  cases reach <;> simp [subschemas_auxiliary, subschemas_keywords, declared, elements, listed]

theorem resolveNullable_eq_none (resolved : ∀ flag, n.nullable = some (.valid flag) →
    flag = true ∧ ∃ value, n.types = some (.malformed value)) : n.resolveNullable? = none := by
  cases changed : n.resolveNullable? with
  | none => rfl
  | some n' =>
    rcases resolveNullable_cases changed with ⟨flag, -⟩ | ⟨flag, ⟨types, given, -⟩ | ⟨absent, -⟩⟩
    · cases (resolved _ flag).1
    · obtain ⟨-, value, malformed⟩ := resolved _ flag
      cases given.symm.trans malformed
    · obtain ⟨-, value, malformed⟩ := resolved _ flag
      cases absent.symm.trans malformed

end NodeOf

namespace Schema

theorem nodeHeight_withoutFlag {n : Node} (flag : n.nullable = some (.valid true)) :
    nodeHeight n = 1 + nodeHeight n.withoutFlag := by
  obtain ⟨⟩ := n
  cases flag
  simp only [NodeOf.withoutFlag, nodeHeight, flagHeight, Nat.zero_add]

theorem lowering_resolveNullable : Lowering fun n => Noted.ofOption n n.resolveNullable? := by
  refine lowering_ofOption fun n n' changed s member => ?_
  rcases NodeOf.resolveNullable_cases changed with ⟨-, rfl⟩ | ⟨flag, ⟨types, -, rfl⟩ | ⟨-, ⟨-, rfl⟩ | ⟨-, rfl⟩⟩⟩
  · exact height_le_nodeHeight (n := n) member
  · exact height_le_nodeHeight (n := n) member
  · cases member
  · rw [NodeOf.subschemas_choice, List.mem_pair] at member
    have below := nodeHeight_withoutFlag flag
    rcases member with rfl | rfl
    · rw [height]
      omega
    · have low : (Schema.node NodeOf.nullType).height = 1 := rfl
      omega

end Schema

end Schemata
