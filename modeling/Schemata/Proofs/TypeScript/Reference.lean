import Schemata.Proofs.TypeScript.Identifier
import Schemata.Proofs.TypeScript.Soundness

namespace Schemata

namespace TsType

variable {names : Table String} {ident : String}

theorem ofReference_eq_ref_iff {reference : String} : ofReference names (.valid reference) = .ref ident ↔
    ∃ name, reference = Reference.canonicalStart ++ name ∧ names.lookup name = some ident := by
  rw [ofReference]
  constructor
  · intro typed
    split at typed
    · rename_i given found
      obtain ⟨name, cut, listed⟩ := Option.bind_eq_some_iff.mp found
      cases typed
      exact ⟨name, Text.dropStart?_eq_some_iff.mp cut, listed⟩
    · cases typed
  · rintro ⟨name, rfl, listed⟩
    rw [Text.dropStart?_append, Option.bind_some, listed]

/-- Identifiers tell the definitions apart, so there is one reference that is typed by each of them. -/
theorem ofReference_eq_ref_iff_of_lookup {name reference : String} (different : (names.map (·.2)).Nodup)
    (found : names.lookup name = some ident) :
    ofReference names (.valid reference) = .ref ident ↔ reference = Reference.canonicalStart ++ name := by
  rw [ofReference_eq_ref_iff]
  constructor
  · rintro ⟨other, rfl, again⟩
    rw [Table.name_of_lookup different found again]
  · exact fun same => ⟨name, same, found⟩

end TsType

namespace SchemaSet

/-- The names of the types of a set, by definition. -/
def typeNames (set : SchemaSet) : Table String :=
  Table.mapValues Binding.typeName (Binding.table (Table.keys set.definitions))

theorem keys_typeNames {set : SchemaSet} (distinct : Table.Distinct set.definitions) :
    Table.keys set.typeNames = Table.keys set.definitions := by
  rw [typeNames, Table.keys_mapValues, Binding.keys_table distinct]

theorem nodup_typeNames {set : SchemaSet} (distinct : Table.Distinct set.definitions) :
    (set.typeNames.map (·.2)).Nodup := by
  rw [typeNames, Table.mapValues, List.map_map]
  exact (Binding.typeNames_table distinct).2.sublist (List.sublist_append_left _ _)

/-- Every definition has a type, and of all references only the one that is written like its name is typed so. That is
the reference that hoisting writes when the name has nothing to escape, and it leads to the definition when reading the
name as a token gives the name back. -/
theorem ofSchema_reference_iff {set : SchemaSet} (distinct : Table.Distinct set.definitions) {name : String}
    (member : name ∈ Table.keys set.definitions) :
    ∃ ident, set.typeNames.lookup name = some ident ∧
      (∀ (n : Node) (reference : String), n.reference = some (.valid reference) →
        (TsType.ofSchema set.typeNames (.node n) = .ref ident ↔ reference = Reference.canonicalStart ++ name)) ∧
      (∀ n : Node, n.reference = some (.valid (Reference.canonicalStart ++ Pointer.escape name)) →
        (TsType.ofSchema set.typeNames (.node n) = .ref ident ↔ '~' ∉ name.toList ∧ '/' ∉ name.toList)) ∧
      ('%' ∉ name.toList → ∀ target, Reference.LeadsTo (Reference.canonicalStart ++ name) target ↔
        '/' ∉ name.toList ∧ Pointer.unescape name = target) := by
  obtain ⟨ident, found⟩ := Option.isSome_iff_exists.mp
    ((Table.lookup_isSome_iff set.typeNames name).mpr (keys_typeNames distinct ▸ member))
  have typed (n : Node) (reference : String) (given : n.reference = some (.valid reference)) :
      TsType.ofSchema set.typeNames (.node n) = .ref ident ↔ reference = Reference.canonicalStart ++ name := by
    rw [TsType.ofSchema_node, given, TsType.ofForemost]
    exact TsType.ofReference_eq_ref_iff_of_lookup (nodup_typeNames distinct) found
  refine ⟨ident, found, typed, fun n given => ?_, fun percent target => Reference.leadsTo_canonical_iff percent⟩
  rw [typed n _ given, ← Pointer.escape_eq_self_iff, String.append_right_inj]

/-- A name with a slash, and another that is the written form of the first: the reference to the one is typed as the
other. -/
theorem ofSchema_reference_iff_slash :
    let set := ofDefinitions [("a/b", .bool true), ("a~1b", .bool false)]
    let type := TsType.ofSchema set.typeNames (.node { reference := some (.valid "#/definitions/a~1b") })
    Table.Distinct set.definitions ∧ set.typeNames.lookup "a/b" = some "AB" ∧ type ≠ .ref "AB" ∧
      set.typeNames.lookup "a~1b" = some "A1b" ∧ type = .ref "A1b" ∧
      Reference.LeadsTo "#/definitions/a~1b" "a/b" ∧ ¬ Reference.LeadsTo "#/definitions/a~1b" "a~1b" := by
  intro set type
  have distinct : Table.Distinct set.definitions := by
    rw [Table.Distinct]
    decide
  have first : set.typeNames.lookup "a/b" = some "AB" := by decide +kernel
  have second : set.typeNames.lookup "a~1b" = some "A1b" := by decide +kernel
  obtain ⟨ident, found, -, escaped, -⟩ := ofSchema_reference_iff distinct (show "a/b" ∈ _ by decide)
  obtain ⟨ident', found', typed, -, leads⟩ := ofSchema_reference_iff distinct (show "a~1b" ∈ _ by decide)
  obtain rfl := Option.some.inj (first.symm.trans found)
  obtain rfl := Option.some.inj (second.symm.trans found')
  refine ⟨distinct, first, ?_, second, (typed _ _ rfl).mpr rfl, ?_, ?_⟩
  · exact fun same => ((escaped _ rfl).mp same).2 (by decide)
  · exact (leads (by decide) "a/b").mpr (by decide)
  · exact fun wrong => absurd ((leads (by decide) "a~1b").mp wrong).2 (by decide)

end SchemaSet

end Schemata
