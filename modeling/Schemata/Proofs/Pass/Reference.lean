import Schemata.Pass.Reference
import Schemata.Proofs.Schema.Everywhere
import Schemata.Proofs.Text.Cut

namespace Schemata

namespace Reference

theorem canonical?_cases {reference target : String} (moved : canonical? reference = some target) :
    ∃ start ∈ localStarts, ∃ rest, reference = start ++ rest ∧ target = canonicalStart ++ rest := by
  obtain ⟨start, listed, found⟩ := List.exists_of_findSome?_eq_some moved
  obtain ⟨rest, cut, same⟩ := Option.map_eq_some_iff.mp found
  exact ⟨start, listed, rest, Text.dropStart?_eq_some_iff.mp cut, same.symm⟩

theorem canonical?_canonical (rest : String) : canonical? (canonicalStart ++ rest) = none := by
  rw [canonical?, List.findSome?_eq_none_iff]
  intro start listed
  rw [Option.map_eq_none_iff]
  refine Text.dropStart?_eq_none rest fun more more' => ?_
  rcases List.mem_pair.mp listed with rfl | rfl <;>
    simp [canonicalStart]

theorem canonical?_components (rest : String) :
    canonical? ("#/components/schemas/" ++ rest) = some (canonicalStart ++ rest) := by
  simp [canonical?, localStarts]

theorem canonical?_defs (rest : String) : canonical? ("#/$defs/" ++ rest) = some (canonicalStart ++ rest) := by
  have differ : Text.dropStart? "#/components/schemas/" ("#/$defs/" ++ rest) = none :=
    Text.dropStart?_eq_none rest fun more more' => by simp
  simp [canonical?, localStarts, differ]

/-- What the canonical form of a reference is, is canonical. -/
theorem canonical?_of_canonical? {reference target : String} (moved : canonical? reference = some target) :
    canonical? target = none := by
  obtain ⟨start, -, rest, -, rfl⟩ := canonical?_cases moved
  exact canonical?_canonical rest

theorem target?_nil (reference : String) : target? [] reference = canonical? reference := by
  simp only [target?, List.findSome?_nil, Option.none_or]

end Reference

namespace NodeOf

variable {n n' : Node} {moves : List Reference.Move}

theorem redirect_cases (changed : n.redirect? moves = some n') :
    ∃ reference target, n.reference = some (.valid reference) ∧ Reference.target? moves reference = some target ∧
      target ≠ reference ∧ n' = { n with reference := some (.valid target) } := by
  unfold redirect? at changed
  split at changed
  · rename_i reference given
    split at changed
    · rename_i target found
      by_cases same : target = reference
      · rw [if_pos same] at changed
        cases changed
      · rw [if_neg same] at changed
        exact ⟨reference, target, given, found, same, (Option.some.inj changed).symm⟩
    · cases changed
  · cases changed

/-- The node after its own reference was redirected. -/
def redirected (moves : List Reference.Move) (n : Node) : Node :=
  { n with reference := n.reference.map (Slot.map fun text => (Reference.target? moves text).getD text) }

theorem redirect_value (moves : List Reference.Move) (n : Node) :
    (Noted.ofOption n (n.redirect? moves)).value = n.redirected moves := by
  obtain ⟨⟩ := n
  rename_i reference _ _
  rcases reference with - | (text | value)
  · rfl
  · simp only [redirect?, redirected, Option.map_some, Slot.map]
    cases Reference.target? moves text with
    | none => rfl
    | some target =>
      by_cases same : target = text
      · simp only [same, if_true, Noted.ofOption, Option.getD_some]
      · simp only [same, if_false, Noted.ofOption, Option.getD_some]
  · rfl

end NodeOf

namespace Schema

variable {moves : List Reference.Move}

theorem lowering_redirect (moves : List Reference.Move) : Lowering fun n => Noted.ofOption n (n.redirect? moves) := by
  refine lowering_ofOption fun n n' changed s member => ?_
  obtain ⟨reference, target, -, -, -, rfl⟩ := NodeOf.redirect_cases changed
  exact height_le_nodeHeight (n := n) member

@[simp] theorem redirect_bool (value : Bool) : (redirect moves (.bool value)).value = .bool value := by
  rw [redirect, mapNodes_bool]
  rfl

@[simp] theorem redirect_malformed (value : Json) : (redirect moves (.malformed value)).value = .malformed value := by
  rw [redirect, mapNodes_malformed]
  rfl

/-- Redirecting a node redirects its own reference and everything below it. -/
theorem redirect_node (n : Node) :
    (redirect moves (.node n)).value =
      .node ((n.redirected moves).mapReach .auxiliary fun s => (redirect moves s).value) := by
  rw [redirect, (lowering_redirect moves).mapNodes_value, NodeOf.redirect_value]
  rfl

end Schema

end Schemata
