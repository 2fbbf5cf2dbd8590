import Schemata.Json.Pointer
import Schemata.Proofs.Table

namespace Schemata

namespace Json

variable {fields part : Table Json} {items : List Json} {name : String} {value item : Json}

theorem object?_eq_some_iff : value.object? = some fields ↔ value = .object fields := by
  cases value <;> simp [object?]

theorem mem_object?_getD_iff {entry : String × Json} :
    entry ∈ value.object?.getD [] ↔ ∃ fields, value = .object fields ∧ entry ∈ fields := by
  cases value <;> simp [object?]

theorem string?_eq_some_iff {text : String} : value.string? = some text ↔ value = .string text := by
  cases value <;> simp [string?]

theorem depth_object (fields : Table Json) : (Json.object fields).depth = 1 + depth.depthOfFields fields := by
  rw [depth]

theorem depth_le_depthOfFields (member : (name, value) ∈ fields) : value.depth ≤ depth.depthOfFields fields := by
  induction fields with
  | nil => cases member
  | cons entry rest ih =>
    rw [depth.depthOfFields]
    rcases List.mem_cons.mp member with rfl | later
    · exact Nat.le_max_left ..
    · exact Nat.le_trans (ih later) (Nat.le_max_right ..)

theorem depthOfFields_sublist (inside : part.Sublist fields) :
    depth.depthOfFields part ≤ depth.depthOfFields fields := by
  induction inside with
  | slnil => exact Nat.le_refl _
  | cons entry _ ih =>
    rw [depth.depthOfFields]
    exact Nat.le_trans ih (Nat.le_max_right ..)
  | cons_cons entry _ ih =>
    rw [depth.depthOfFields, depth.depthOfFields]
    omega

theorem size_lt_of_item (member : item ∈ items) : item.size < (Json.array items).size := by
  have inner : item.size ≤ sizeOfItems items := by
    induction items with
    | nil => cases member
    | cons first rest ih =>
      rw [sizeOfItems]
      rcases List.mem_cons.mp member with rfl | later
      · exact Nat.le_add_right _ _
      · have := ih later
        omega
  rw [size]
  omega

theorem size_lt_of_entry (member : (name, value) ∈ fields) : value.size < (Json.object fields).size := by
  have inner : value.size ≤ sizeOfFields fields := by
    induction fields with
    | nil => cases member
    | cons first rest ih =>
      rw [sizeOfFields]
      rcases List.mem_cons.mp member with rfl | later
      · exact Nat.le_add_right _ _
      · have := ih later
        omega
  rw [size]
  omega

theorem fieldsKeysDistinct_iff : FieldsKeysDistinct fields ↔ ∀ entry ∈ fields, entry.2.KeysDistinct := by
  induction fields with
  | nil => simp [FieldsKeysDistinct]
  | cons entry rest ih => rw [FieldsKeysDistinct, ih, List.forall_mem_cons]

theorem itemsKeysDistinct_iff : ItemsKeysDistinct items ↔ ∀ item ∈ items, item.KeysDistinct := by
  induction items with
  | nil => simp [ItemsKeysDistinct]
  | cons item rest ih => rw [ItemsKeysDistinct, ih, List.forall_mem_cons]

theorem keysDistinct_object :
    (Json.object fields).KeysDistinct ↔ Table.Distinct fields ∧ ∀ entry ∈ fields, entry.2.KeysDistinct := by
  rw [KeysDistinct, fieldsKeysDistinct_iff]

theorem KeysDistinct.sublist (distinct : (Json.object fields).KeysDistinct) (inside : part.Sublist fields) :
    (Json.object part).KeysDistinct := by
  obtain ⟨names, values⟩ := keysDistinct_object.mp distinct
  exact keysDistinct_object.mpr ⟨names.sublist inside, fun entry member => values entry (inside.subset member)⟩

theorem KeysDistinct.of_mem (distinct : (Json.object fields).KeysDistinct) (member : (name, value) ∈ fields) :
    value.KeysDistinct :=
  (keysDistinct_object.mp distinct).2 _ member

/-- Under one key there is one value. -/
theorem KeysDistinct.eq_of_mem (distinct : (Json.object fields).KeysDistinct) {other : Json}
    (member : (name, value) ∈ fields) (again : (name, other) ∈ fields) : value = other := by
  have names := (keysDistinct_object.mp distinct).1
  exact Option.some.inj ((Table.lookup_of_mem names member).symm.trans (Table.lookup_of_mem names again))

theorem KeysDistinct.member? {token : String} (distinct : value.KeysDistinct) {inner : Json}
    (found : value.member? token = some inner) : inner.KeysDistinct := by
  unfold Json.member? at found
  split at found
  · exact distinct.of_mem (Table.mem_of_lookup found)
  · obtain ⟨index, -, place⟩ := Option.bind_eq_some_iff.mp found
    rw [KeysDistinct] at distinct
    exact itemsKeysDistinct_iff.mp distinct inner (List.mem_of_getElem? place)
  · cases found

theorem KeysDistinct.resolve? {pointer : Pointer} (distinct : value.KeysDistinct) {inner : Json}
    (found : value.resolve? pointer = some inner) : inner.KeysDistinct := by
  induction pointer generalizing value with
  | nil => exact Option.some.inj found ▸ distinct
  | cons token rest ih =>
    obtain ⟨next, member, further⟩ := Option.bind_eq_some_iff.mp found
    exact ih (distinct.member? member) further

theorem KeysDistinct.get? (distinct : value.KeysDistinct) {inner : Json} (found : value.get? name = some inner) :
    inner.KeysDistinct := by
  unfold Json.get? at found
  split at found
  · exact distinct.of_mem (Table.mem_of_lookup found)
  · cases found

end Json

end Schemata
