import Mathlib.Data.List.Flatten
import Schemata.Proofs.Naming
import Schemata.Proofs.Table
import Schemata.Proofs.Text.Cut
import Schemata.TypeScript.Generate

namespace Schemata

namespace TsText

theorem inIdentifier_upperAscii {c : Char} (inside : inIdentifier c) : inIdentifier (Text.upperAscii c) := by
  have capital : ∀ place < 26, inIdentifier (Char.ofNat (65 + place)) := by decide
  unfold Text.upperAscii
  split
  · rename_i lower
    have first : 97 ≤ c.toNat := UInt32.le_iff_toNat_le.mp (Char.le_def.mp lower.1)
    have last : c.toNat ≤ 122 := UInt32.le_iff_toNat_le.mp (Char.le_def.mp lower.2)
    have place : c.toNat - 32 = 65 + (c.toNat - 97) := by omega
    rw [place]
    exact capital (c.toNat - 97) (by omega)
  · exact inside

theorem isIdentifier_iff {name : String} : isIdentifier name ↔
    ∃ c rest, name.toList = c :: rest ∧ startsIdentifier c ∧ ∀ d ∈ rest, inIdentifier d := by
  unfold isIdentifier
  split
  · rename_i empty
    simp [empty]
  · rename_i c rest letters
    simp [letters]

theorem startsIdentifier_of_inIdentifier {c : Char} (inside : inIdentifier c) (letter : c.isDigit = false) :
    startsIdentifier c := by
  simpa [inIdentifier, startsIdentifier, Char.isAlphanum, letter] using inside

/-- Every name has a valid identifier. -/
theorem isIdentifier_identifier (name : String) : isIdentifier (identifier name) := by
  have kept : ∀ c ∈ (Text.pieces (fun c => !inIdentifier c) name.toList).flatMap Text.capitalized, inIdentifier c := by
    intro c member
    obtain ⟨piece, listed, inside⟩ := List.mem_flatMap.mp member
    have letters := Text.separates_of_mem_pieces listed
    simp only [Bool.not_eq_false'] at letters
    cases piece with
    | nil => cases inside
    | cons first rest =>
      rcases List.mem_cons.mp inside with rfl | later
      · exact inIdentifier_upperAscii (letters first List.mem_cons_self)
      · exact letters c (List.mem_cons_of_mem _ later)
  unfold identifier
  generalize (Text.pieces (fun c => !inIdentifier c) name.toList).flatMap Text.capitalized = letters at kept ⊢
  cases letters with
  | nil => decide
  | cons c rest =>
    obtain ⟨first, others⟩ := List.forall_mem_cons.mp kept
    rw [isIdentifier_iff, String.toList_ofList]
    by_cases digit : c.isDigit
    · rw [if_pos digit]
      exact ⟨'_', c :: rest, rfl, by decide, kept⟩
    · rw [if_neg digit]
      exact ⟨c, rest, rfl, startsIdentifier_of_inIdentifier first (Bool.eq_false_iff.mpr digit), others⟩

theorem isIdentifier_append {name suffix : String} (valid : isIdentifier name)
    (inside : ∀ c ∈ suffix.toList, inIdentifier c) : isIdentifier (name ++ suffix) := by
  obtain ⟨c, rest, letters, starts, others⟩ := isIdentifier_iff.mp valid
  refine isIdentifier_iff.mpr ⟨c, rest ++ suffix.toList, ?_, starts, List.forall_mem_append.mpr ⟨others, inside⟩⟩
  rw [String.toList_append, letters, List.cons_append]

theorem isIdentifier_append_number {name : String} (valid : isIdentifier name) (number : Nat) :
    isIdentifier (name ++ toString number) := by
  refine isIdentifier_append valid fun c digit => ?_
  rw [Nat.toString_eq_ofList_toDigits, String.toList_ofList] at digit
  have isDigit := Nat.isDigit_of_mem_toDigits (by decide) (by decide) digit
  simp [inIdentifier, Char.isAlphanum, isDigit]

theorem isIdentifier_of_named {taken bases names : List String} (named : NameAllocator.Named taken bases names)
    (valid : ∀ base ∈ bases, isIdentifier base) : ∀ name ∈ names, isIdentifier name :=
  named.forall_mem (fun _ => isIdentifier_append_number) valid

end TsText

namespace Binding

variable {names : List String}

/-- The names of the constants of a definition. -/
def valueNames (binding : Binding) : List String := [binding.schemaName, binding.decoderName]

/-- The names that the constants of a definition ask for. -/
def valueBases (typeName : String) : List String := [typeName ++ "Schema", typeName ++ "Decoder"]

theorem keys_allocate (types values : NameAllocator) (names : List String) :
    Table.keys (allocate types values names) = names := by
  induction names generalizing types values with
  | nil => rfl
  | cons name rest ih => rw [allocate, Table.keys_cons, ih]

theorem typeNames_allocate (types values : NameAllocator) (names : List String) :
    (allocate types values names).map (·.2.typeName) = (types.allocateAll (names.map TsText.identifier)).1 := by
  induction names generalizing types values with
  | nil => rfl
  | cons name rest ih =>
    rw [allocate, List.map_cons, ih]
    rfl

theorem valueNames_allocate (types values : NameAllocator) (names : List String) :
    (allocate types values names).flatMap (fun entry => entry.2.valueNames) =
      (values.allocateAll ((allocate types values names).flatMap fun entry => valueBases entry.2.typeName)).1 := by
  induction names generalizing types values with
  | nil => rfl
  | cons name rest ih =>
    rw [allocate, List.flatMap_cons, List.flatMap_cons, ih]
    rfl

theorem table_eq_allocate (distinct : names.Nodup) :
    table names = allocate (.reserving reservedTypes) (.reserving reservedValues) names := by
  refine Table.insertAll_of_distinct ?_
  rw [List.nil_append, Table.Distinct, keys_allocate]
  exact distinct

theorem keys_table (distinct : names.Nodup) : Table.keys (table names) = names := by
  rw [table_eq_allocate distinct, keys_allocate]

/-- Names of types are valid and different, and none of them is reserved. -/
theorem typeNames_table (distinct : names.Nodup) :
    (∀ name ∈ (table names).map (·.2.typeName), TsText.isIdentifier name) ∧
      ((table names).map (·.2.typeName) ++ reservedTypes).Nodup := by
  rw [table_eq_allocate distinct, typeNames_allocate]
  have gives := NameAllocator.allocateAll_gives (.reserving reservedTypes) (names.map TsText.identifier)
  constructor
  · refine TsText.isIdentifier_of_named (NameAllocator.allocateAll_named _ _) ?_
    exact List.forall_mem_map.mpr fun name _ => TsText.isIdentifier_identifier name
  · refine List.nodup_append.mpr ⟨gives.distinct, by decide, ?_⟩
    rintro name given _ reserved rfl
    exact gives.free name given reserved

/-- Names of constants are valid and different, and none of them is reserved. -/
theorem valueNames_table (distinct : names.Nodup) :
    (∀ name ∈ (table names).flatMap (fun entry => entry.2.valueNames), TsText.isIdentifier name) ∧
      ((table names).flatMap (fun entry => entry.2.valueNames) ++ reservedValues).Nodup := by
  have typeNames := (typeNames_table distinct).1
  rw [table_eq_allocate distinct] at typeNames ⊢
  rw [valueNames_allocate]
  have gives := NameAllocator.allocateAll_gives (.reserving reservedValues)
    ((allocate (.reserving reservedTypes) (.reserving reservedValues) names).flatMap fun entry =>
      valueBases entry.2.typeName)
  constructor
  · refine TsText.isIdentifier_of_named (NameAllocator.allocateAll_named _ _) fun base member => ?_
    obtain ⟨entry, listed, asked⟩ := List.mem_flatMap.mp member
    have valid := typeNames entry.2.typeName (List.mem_map_of_mem listed)
    rcases List.mem_pair.mp asked with rfl | rfl
    · exact TsText.isIdentifier_append valid (List.all_eq_true.mp (by decide))
    · exact TsText.isIdentifier_append valid (List.all_eq_true.mp (by decide))
  · refine List.nodup_append.mpr ⟨gives.distinct, by decide, ?_⟩
    rintro name given _ reserved rfl
    exact gives.free name given reserved

end Binding

end Schemata
