import Schemata.Pass.Tuple
import Schemata.Proofs.Schema.Everywhere

namespace Schemata

namespace NodeOf

variable {n n' : Node} {reach : Reach}

theorem positionalItems_cases (changed : n.positionalItems? = some n') :
    ∃ schemas, n.prefixItems = some (.valid schemas) ∧ (∀ positions, n.items ≠ some (.positional positions)) ∧
      n' = { n with
        prefixItems := none, items := some (.positional schemas), additionalItems := n.laterItems } := by
  unfold positionalItems? at changed
  split at changed
  · cases changed
  · rename_i schemas given single
    exact ⟨schemas, given, fun positions same => single positions same, (Option.some.inj changed).symm⟩
  · cases changed

theorem positionalItems_eq_none (positional : ∀ schemas, n.prefixItems = some (.valid schemas) →
    ∃ positions, n.items = some (.positional positions)) : n.positionalItems? = none := by
  cases changed : n.positionalItems? with
  | none => rfl
  | some n' =>
    obtain ⟨schemas, given, single, -⟩ := positionalItems_cases changed
    obtain ⟨positions, same⟩ := positional schemas given
    exact absurd same (single positions)

/-- What stands for the later elements was there before, or joins the two schemas that spoke of them. -/
theorem laterItems_cases {s : Schema} (later : n.laterItems = some s) :
    n.items = some (.single s) ∨ n.additionalItems = some s ∨
      ∃ existing rest, n.additionalItems = some existing ∧ n.items = some (.single rest) ∧
        s = .node (everyOf [existing, rest]) := by
  unfold laterItems at later
  split at later
  · rename_i rest single
    split at later
    · cases later
      exact Or.inl single
    · rename_i existing present
      cases later
      exact Or.inr (Or.inr ⟨existing, rest, present, single, rfl⟩)
  · exact Or.inr (Or.inl later)

theorem subschemas_positionalItems (changed : n.positionalItems? = some n') {s : Schema}
    (member : s ∈ n'.subschemas reach) : s ∈ n.subschemas reach ∨ reach = .auxiliary ∧
      ∃ existing rest, n.additionalItems = some existing ∧ n.items = some (.single rest) ∧
        s = .node (everyOf [existing, rest]) := by
  obtain ⟨schemas, given, single, rfl⟩ := positionalItems_cases changed
  have inside : s ∈ NodeOf.subschemas .keywords { n with
      prefixItems := none, items := some (.positional schemas), additionalItems := n.laterItems } →
      s ∈ n.subschemas .keywords := by
    simp only [subschemas_keywords, elements, listed, given, List.append_nil, List.mem_append, or_assoc]
    rintro (h | h | h | h | h | h | h | h | h) <;> simp only [h, true_or, or_true]
  cases reach with
  | keywords => exact Or.inl (inside member)
  | auxiliary =>
    rw [subschemas_auxiliary] at member ⊢
    simp only [List.mem_append, Option.mem_toList] at member ⊢
    rcases member with near | forbidden | later
    · exact Or.inl (Or.inl (inside near))
    · exact Or.inl (Or.inr (Or.inl forbidden))
    · rcases laterItems_cases later with item | additional | joined
      · refine Or.inl (Or.inl ?_)
        simp [subschemas_keywords, elements, item]
      · exact Or.inl (Or.inr (Or.inr additional))
      · exact Or.inr ⟨trivial, joined⟩

end NodeOf

namespace Schema

theorem height_everyOf (s t : Schema) :
    (Schema.node (NodeOf.everyOf [s, t])).height = 1 + max s.height t.height := by
  simp [height, nodeHeight, flagHeight, propertiesHeight, itemsHeight, raisedHeight, slotHeight, listHeight,
    NodeOf.everyOf]

theorem lowering_positionalItems : Lowering fun n => Noted.ofOption n n.positionalItems? := by
  refine lowering_ofOption fun n n' changed s member => ?_
  rcases NodeOf.subschemas_positionalItems changed member with before | ⟨-, existing, rest, present, single, rfl⟩
  · exact height_le_nodeHeight before
  · have fits := within_nodeHeight n
    have additional := fits.additionalItems
    have items := fits.items
    rw [present, raisedHeight] at additional
    rw [single, itemsHeight] at items
    rw [height_everyOf]
    omega

end Schema

end Schemata
