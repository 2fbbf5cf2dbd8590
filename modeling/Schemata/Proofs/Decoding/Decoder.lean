import Schemata.Decoding.Decoder
import Schemata.Proofs.Decoding.Library
import Schemata.Proofs.Document.Standalone

namespace Schemata

namespace Decoder

variable {name : String} {schema value : Json} {decoder : Decoder}

theorem compile_eq_ok_iff {library : SchemaLibrary} : compile library.compiler name schema = .ok decoder ↔
    ∃ check, library.build schema = .ok check ∧ decoder = ⟨name, fun value => (check value).map SchemaError.violation⟩ := by
  simp only [compile, SchemaLibrary.compiler]
  cases library.build schema with
  | ok check => simp [Except.map, eq_comm]
  | error message => simp [Except.map]

theorem decode_eq_ok_iff {α : Type} {read : ShapeReader α} {data : α} :
    decoder.decode read value = .ok data ↔ decoder.check value = [] ∧ read value = .ok data := by
  unfold decode
  cases decoder.check value with
  | nil => cases read value <;> simp
  | cons violation rest => simp

end Decoder

namespace DecoderSet

variable {decoders : DecoderSet} {name other owner : String} {result : Except CompileError Decoder}
  {compiler : ValidatorCompiler} {set : SchemaSet} {schema : Schema}

theorem find?_record_of_ne (differ : other ≠ name) (result : Except CompileError Decoder) :
    (decoders.record name result).find? other = decoders.find? other := by
  cases result <;> simp only [record, find?, Table.lookup_insert, if_neg differ]

theorem find?_record_self (before : decoders.find? name = none ∨ decoders.find? name = some result) :
    (decoders.record name result).find? name = some result := by
  cases result with
  | ok decoder => simp only [record, find?, Table.lookup_insert, if_true]
  | error e =>
    have absent : decoders.decoders.lookup name = none := by
      cases present : decoders.decoders.lookup name with
      | none => rfl
      | some decoder => simp [find?, present] at before
    simp only [record, find?, absent, Table.lookup_insert, if_true]
    rfl

/-- After its turn there is for a definition what the compiler makes of it, and before it there is nothing. -/
theorem find?_foldl {made : String → Except CompileError Decoder} (names : List String)
    (before : decoders.find? name = none ∨ decoders.find? name = some (made name)) :
    (names.foldl (fun decoders name => decoders.record name (made name)) decoders).find? name =
      if name ∈ names then some (made name) else decoders.find? name := by
  induction names generalizing decoders with
  | nil => rfl
  | cons first rest ih =>
    rw [List.foldl_cons]
    by_cases same : name = first
    · subst same
      have turn := find?_record_self before
      rw [ih (Or.inr turn), turn, ite_self, if_pos List.mem_cons_self]
    · have turn : (decoders.record first (made first)).find? name = decoders.find? name :=
        find?_record_of_ne same (made first)
      rw [ih (by rwa [turn]), turn]
      simp only [List.mem_cons, same, false_or]

/-- A compiler is asked about every definition, with its schema of its own. -/
theorem find?_compileWith (compiler : ValidatorCompiler) (set : SchemaSet) (name : String) :
    (compileWith compiler set).find? name = (set.standalone? name).map (Decoder.compile compiler name) := by
  rw [compileWith, find?_foldl _ (Or.inl rfl)]
  cases alone : set.standalone? name with
  | some root =>
    obtain ⟨own, found, -⟩ := Option.map_eq_some_iff.mp alone
    rw [if_pos (Table.name_mem_keys (Table.mem_of_lookup found)), compiled, standalone, alone]
    rfl
  | none =>
    have absent : name ∉ Table.keys set.definitions := by
      intro present
      rw [← Table.lookup_isSome_iff, Option.map_eq_none_iff.mp alone] at present
      cases present
    rw [if_neg absent]
    rfl

theorem find?_compile_eq_ok_iff {library : SchemaLibrary} {decoder : Decoder} :
    (compile library set).find? name = some (.ok decoder) ↔
      ∃ root check, set.standalone? name = some root ∧ library.build root = .ok check ∧
        decoder = ⟨name, fun value => (check value).map SchemaError.violation⟩ := by
  rw [compile, find?_compileWith, Option.map_eq_some_iff]
  simp only [Decoder.compile_eq_ok_iff, exists_and_left]

/-- In the schema that a definition of the set is on its own next to a new definition, a reference of the set leads to the
new definition, into it, or to the table that it stands in. -/
def LeadsTo {library : SchemaLibrary} (behaviour : library.Behaviour) (set : SchemaSet) (owner name : String)
    (schema : Schema) : Prop :=
  ∃ root root' place target, set.standalone? owner = some root ∧
    (set.insert name schema).standalone? owner = some root' ∧ root.RefersAt place ∧
    behaviour.leads root' place target ∧ target.Concerns name

/-- The new set has a decoder for the definition, too, and it decodes the same values to the same data. -/
def Keeps (library : SchemaLibrary) (set : SchemaSet) (owner : String) (decoder : Decoder) : Prop :=
  ∃ decoder', (compile library set).find? owner = some (.ok decoder') ∧
    ∀ {α : Type} (read : ShapeReader α) (value : Json) (data : α),
      decoder'.decode read value = .ok data ↔ decoder.decode read value = .ok data

theorem keeps_iff {library : SchemaLibrary} {root : Json} (alone : set.standalone? owner = some root)
    (check : Json → List SchemaError) :
    Keeps library set owner ⟨owner, fun value => (check value).map SchemaError.violation⟩ ↔
      ∃ check', library.build root = .ok check' ∧ ∀ value, check' value = [] ↔ check value = [] := by
  constructor
  · rintro ⟨decoder', made, alike⟩
    obtain ⟨root', check', alone', built, rfl⟩ := find?_compile_eq_ok_iff.mp made
    obtain rfl := Option.some.inj (alone.symm.trans alone')
    refine ⟨check', built, fun value => ?_⟩
    simpa [Decoder.decode_eq_ok_iff] using alike (fun _ => .ok ()) value ()
  · rintro ⟨check', built, alike⟩
    refine ⟨_, find?_compile_eq_ok_iff.mpr ⟨root, check', alone, built, rfl⟩, fun read value data => ?_⟩
    simp only [Decoder.decode_eq_ok_iff, List.map_eq_nil_iff, alike]

/-- In a set of definitions without blocks. -/
theorem keeps_insert_iff {library : SchemaLibrary} (behaviour : library.Behaviour)
    (ordinary : ∀ entry ∈ set.definitions, entry.2.Proper ∧ entry.2.Blockless)
    (fresh : name ∉ Table.keys set.definitions) (apart : ¬ LeadsTo behaviour set owner name schema)
    {decoder : Decoder} (compiled : (compile library set).find? owner = some (.ok decoder)) :
    Keeps library (set.insert name schema) owner decoder ↔
      (behaviour.meets schema.toJson ∧
        ∀ root, (set.insert name schema).standalone? owner = some root → behaviour.loads root) ∨
      ∀ fields, set.standalone? owner ≠ some (.object fields) := by
  obtain ⟨root, check, alone, built, rfl⟩ := find?_compile_eq_ok_iff.mp compiled
  rcases SchemaSet.standalone?_insert ordinary fresh alone schema with ⟨fields, first, rfl, after⟩ | ⟨other, after⟩
  · rw [keeps_iff after, behaviour.build_append_iff first (SchemaSet.not_mem_keys_shared fresh) ?_ built, after]
    · have some : ¬ ∀ fields, set.standalone? owner ≠ some (.object fields) := fun other => other _ alone
      simp only [Option.some.injEq, forall_eq', some, or_false]
    · exact fun place refers target leads concerns =>
        apart ⟨_, _, place, target, alone, after, refers, leads, concerns⟩
  · refine iff_of_true ((keeps_iff after check).mpr ⟨check, built, fun _ => Iff.rfl⟩) (Or.inr fun fields same => ?_)
    obtain rfl := Option.some.inj (alone.symm.trans same)
    cases other

/-- In the normal form of a document, a definition keeps its decoder next to a new definition that no reference has to do
with exactly if the new one meets the meta-schema and what is named in both together can be loaded, or the old one is no
object. Whether the references of the new definition lead to anything does not count. -/
theorem decoder_insert_iff {library : SchemaLibrary} (behaviour : library.Behaviour) {document : Document}
    (parsed : document.Parsed) (settings : NormalizeSettings)
    (fresh : name ∉ Table.keys (SchemaSet.ofDocument document settings).definitions)
    (apart : ¬ LeadsTo behaviour (SchemaSet.ofDocument document settings) owner name schema) {decoder : Decoder}
    (compiled : (compile library (SchemaSet.ofDocument document settings)).find? owner = some (.ok decoder)) :
    Keeps library ((SchemaSet.ofDocument document settings).insert name schema) owner decoder ↔
      (behaviour.meets schema.toJson ∧
        ∀ root, ((SchemaSet.ofDocument document settings).insert name schema).standalone? owner = some root →
          behaviour.loads root) ∨
      ∀ fields, (SchemaSet.ofDocument document settings).standalone? owner ≠ some (.object fields) := by
  have normal := SchemaSet.normal_ofDocument parsed settings
  exact keeps_insert_iff behaviour (fun entry member => ⟨normal.proper entry member, normal.blockless entry member⟩) fresh
    apart compiled

/-- Next to a definition that refers to nothing that exists, a definition that refers to another one keeps its decoder; next
to one with a minimum that is no number it loses it. -/
theorem decoder_insert_dangling :
    let document := Document.ofJson (.object [("definitions", .object [("Pet", .object [("type", .string "object")]),
      ("Owner", .object [("$ref", .string "#/definitions/Pet")])])])
    let set := SchemaSet.ofDocument document {}
    let dangling := Schema.ofJson (.object [("$ref", .string "#/components/requestBodies/Missing")])
    let broken := Schema.ofJson (.object [("minimum", .string "x")])
    ∃ decoder, (compile Miniature.library set).find? "Owner" = some (.ok decoder) ∧
      Keeps Miniature.library (set.insert "Broken" dangling) "Owner" decoder ∧
      ¬ Keeps Miniature.library (set.insert "Broken" broken) "Owner" decoder := by
  intro document set dangling broken
  have parsed : document.Parsed := by
    refine ⟨_, ?_, rfl⟩
    simp [Json.KeysDistinct, Json.FieldsKeysDistinct, Table.Distinct]
  let table : Table Json :=
    [("Pet", .object [("type", .string "object")]), ("Owner", .object [("$ref", .string "#/definitions/Pet")])]
  have alone : set.standalone? "Owner" = some (.carrying [("$ref", .string "#/definitions/Pet")] table) := by
    rfl
  have fresh : "Broken" ∉ Table.keys set.definitions := by decide +kernel
  have normal := SchemaSet.normal_ofDocument parsed {}
  have next (schema : Schema) : (set.insert "Broken" schema).standalone? "Owner" =
      some (.carrying [("$ref", .string "#/definitions/Pet")] (table ++ [("Broken", schema.toJson)])) := by
    rcases SchemaSet.standalone?_insert (fun entry member => ⟨normal.proper entry member, normal.blockless entry member⟩)
      fresh alone schema with ⟨fields, -, same, after⟩ | ⟨other, -⟩
    · obtain ⟨rfl, shared⟩ := Json.carrying_inj same
      rw [after, ← shared]
    · cases other
  have apart (schema : Schema) : ¬ LeadsTo Miniature.behaviour set "Owner" "Broken" schema := by
    rintro ⟨root, root', place, target, -, after, -, ⟨-, reference, refers, names⟩, concerns⟩
    obtain rfl := Option.some.inj (after.symm.trans (next schema))
    obtain rfl := Json.string.inj (Option.some.inj ((Miniature.get?_carrying (by decide)).symm.trans refers))
    have named : Miniature.place? "#/definitions/Pet" = some ["definitions", "Pet"] := by decide +kernel
    obtain rfl := Option.some.inj (names.symm.trans named)
    rw [Pointer.Concerns] at concerns
    exact absurd concerns (by decide)
  have built : Miniature.library.build (.carrying [("$ref", .string "#/definitions/Pet")] table) =
      .ok (Miniature.errors (.object [("type", .string "object")])) := rfl
  have compiled := find?_compile_eq_ok_iff.mpr ⟨_, _, alone, built, rfl⟩
  have law (schema : Schema) := decoder_insert_iff Miniature.behaviour parsed {} fresh (apart schema) compiled
  refine ⟨_, compiled, (law dangling).mpr (Or.inl ⟨?_, fun _ _ => trivial⟩), fun keeps => ?_⟩
  · change Miniature.fault? dangling.toJson = none
    decide +kernel
  · rcases (law broken).mp keeps with ⟨meets, -⟩ | other
    · change Miniature.fault? broken.toJson = none at meets
      revert meets
      decide +kernel
    · exact other _ alone

end DecoderSet

end Schemata
