import Schemata.Const.Literal
import Schemata.Proofs.Json.Reading

namespace Schemata

namespace Json

variable {value inner : Json} {contents : List Json} {limit around : Nat}

theorem depth_le_succ_iff (holds : value.contents? = some contents) :
    value.depth ≤ limit + 1 ↔ ∀ inner ∈ contents, inner.depth ≤ limit := by
  cases value with
  | array items =>
    cases holds
    have each : depth.depthOfItems contents ≤ limit ↔ ∀ inner ∈ contents, inner.depth ≤ limit := by
      induction contents with
      | nil => simp [depth.depthOfItems]
      | cons item items ih => rw [depth.depthOfItems, Nat.max_le, ih, List.forall_mem_cons]
    rw [← each, depth]
    omega
  | object fields =>
    cases holds
    have each : depth.depthOfFields fields ≤ limit ↔ ∀ inner ∈ fields.map (·.2), inner.depth ≤ limit := by
      induction fields with
      | nil => simp [depth.depthOfFields]
      | cons field fields ih => rw [depth.depthOfFields, Nat.max_le, ih, List.map_cons, List.forall_mem_cons]
    rw [← each, depth]
    omega
  | _ => cases holds

theorem depth_eq_zero_iff : value.depth = 0 ↔ value.contents? = none := by
  cases value <;> simp [contents?, depth]

/-- A waiting value has no containers, or as many as it nests find room inside those around it. -/
def Fits (limit : Nat) (waiting : Json × Nat) : Prop :=
  waiting.1.depth = 0 ∨ waiting.2 + waiting.1.depth ≤ limit

/-- A container fits when there is room for itself and what it holds fits inside it. -/
theorem fits_iff (holds : value.contents? = some contents) :
    Fits limit (value, around) ↔ around + 1 ≤ limit ∧ ∀ inner ∈ contents, Fits limit (inner, around + 1) := by
  have container : value.depth ≠ 0 := by
    rw [Ne, depth_eq_zero_iff, holds]
    simp
  constructor
  · intro fits
    have whole : around + value.depth ≤ limit := fits.resolve_left container
    have room : value.depth ≤ (limit - (around + 1)) + 1 := by omega
    refine ⟨by omega, fun inner member => Or.inr ?_⟩
    have := (depth_le_succ_iff holds).mp room inner member
    dsimp only
    omega
  · rintro ⟨room, each⟩
    have whole : value.depth ≤ (limit - (around + 1)) + 1 := by
      refine (depth_le_succ_iff holds).mpr fun inner member => ?_
      rcases each inner member with scalar | fits
      · exact scalar.trans_le (Nat.zero_le _)
      · dsimp only at fits
        omega
    exact Or.inr (by dsimp only; omega)

/-- The search meets no container that is too deep when all that wait fit. -/
theorem nestWithin_iff (waiting : List (Json × Nat)) :
    nestWithin limit waiting ↔ ∀ entry ∈ waiting, Fits limit entry := by
  fun_induction nestWithin limit waiting with
  | case1 => simp
  | case2 value around waiting scalar ih =>
    rw [ih, List.forall_mem_cons]
    exact (and_iff_right (Or.inl (depth_eq_zero_iff.mpr scalar))).symm
  | case3 value around waiting contents holds past =>
    have full : ¬ Fits limit (value, around) := fun fits => absurd ((fits_iff holds).mp fits).1 (by omega)
    simp [full]
  | case4 value around waiting contents holds room ih =>
    rw [ih, List.forall_mem_append, List.forall_mem_cons, fits_iff holds, and_iff_right (by omega : around + 1 ≤ limit)]
    simp

theorem admitted_eq (value : Json) :
    admitted (some value) = if value.depth ≤ maxDepth then .ok value else .error .tooDeep := by
  have fits : nestWithin maxDepth [(value, 0)] ↔ value.depth ≤ maxDepth := by
    rw [nestWithin_iff, List.forall_mem_singleton, Fits]
    dsimp only
    omega
  simp only [admitted, fits]

/-- A value may stand under `const` just when it nests at most 127 containers, and just when its compact text is read;
then it is admitted as it is. -/
theorem admitted_exact (value : Json) :
    (∀ result, admitted (some value) = .ok result ↔ result = value ∧ value.depth ≤ 127) ∧
      ((∃ result, admitted (some value) = .ok result) ↔ ∃ read, Json.read value.compact = .ok read) := by
  obtain ⟨shallow, deep⟩ := read_compact value
  have limit : maxDepth = 127 := rfl
  rw [admitted_eq]
  split
  · rename_i within
    refine ⟨fun result => ?_, iff_of_true ⟨value, rfl⟩ (shallow within)⟩
    rw [Except.ok.injEq, eq_comm, and_iff_left (limit ▸ within)]
  · rename_i past
    obtain ⟨e, failed, -⟩ := deep (Nat.lt_of_not_le past)
    refine ⟨fun result => iff_of_false (by simp) fun both => past (limit ▸ both.2), iff_of_false ?_ ?_⟩
    · simp
    · rw [failed]
      simp

end Json

end Schemata
