import Mathlib
import Schemata.Proofs.Pass.HoistWorklist
import Schemata.Proofs.Schema.Acceptance

namespace Schemata

namespace NodeOf

variable {S T : Type}

/-- The node with the text of its own reference replaced by its image. -/
def withReference (f : String → String) (n : NodeOf S) : NodeOf S := { n with reference := n.reference.map (Slot.map f) }

theorem map_withReference (f : String → String) (g : S → T) (n : NodeOf S) :
    (n.withReference f).map g = (n.map g).withReference f := rfl

theorem withReference_withReference (f g : String → String) (n : NodeOf S) :
    (n.withReference f).withReference g = n.withReference (g ∘ f) := by
  simp only [withReference, Option.map_map, Slot.map_comp_map]

theorem withReference_id (n : NodeOf S) : n.withReference id = n := by
  simp only [withReference, Slot.map_id, Option.map_id, id_eq]

theorem map_congr {f g : S → T} {n : NodeOf S} (same : ∀ s ∈ n.subschemas .auxiliary, f s = g s) : n.map f = n.map g := by
  rw [subschemas_auxiliary, List.forall_mem_append] at same
  exact mapBoth_congr same.1 same.2

end NodeOf

namespace Schema

/-- The schema with the text of every reference replaced by its image. -/
def withReferences (f : String → String) : Schema → Schema :=
  fold .bool .malformed fun n => .node (n.withReference f)

section

variable {f g : String → String}

@[simp] theorem withReferences_bool (f : String → String) (value : Bool) :
    withReferences f (.bool value) = .bool value := by rw [withReferences, fold]

@[simp] theorem withReferences_malformed (f : String → String) (value : Json) :
    withReferences f (.malformed value) = .malformed value := by rw [withReferences, fold]

theorem withReferences_node (f : String → String) (n : Node) :
    withReferences f (.node n) = .node ((n.withReference f).map (withReferences f)) := by
  rw [withReferences, fold_node]
  rfl

/-- Induction over schemas, from the subschemas of a node to the node. -/
theorem induction_subschemas {motive : Schema → Prop} (bool : ∀ value, motive (.bool value))
    (malformed : ∀ value, motive (.malformed value))
    (node : ∀ n : Node, (∀ s ∈ n.subschemas .auxiliary, motive s) → motive (.node n)) (schema : Schema) : motive schema :=
  lowering_pure.induction bool malformed node schema

theorem withReferences_id (schema : Schema) : withReferences id schema = schema := by
  induction schema using induction_subschemas with
  | bool value => exact withReferences_bool id value
  | malformed value => exact withReferences_malformed id value
  | node n ih =>
    rw [withReferences_node, n.withReference_id, NodeOf.map_congr ih]
    exact congrArg Schema.node (NodeOf.mapBoth_id n)

theorem withReferences_withReferences (f g : String → String) (schema : Schema) :
    withReferences g (withReferences f schema) = withReferences (g ∘ f) schema := by
  induction schema using induction_subschemas with
  | bool value => simp only [withReferences_bool]
  | malformed value => simp only [withReferences_malformed]
  | node n ih =>
    simp only [withReferences_node, NodeOf.map_withReference, NodeOf.withReference_withReference]
    have both : (n.map (withReferences f)).map (withReferences g) = n.map (withReferences g ∘ withReferences f) :=
      NodeOf.mapBoth_mapBoth ..
    rw [both]
    exact congrArg (fun m => Schema.node (NodeOf.withReference (g ∘ f) m)) (NodeOf.map_congr ih)

/-- Following moves changes the texts of references alone. -/
theorem redirect_eq_withReferences (moves : List Reference.Move) (schema : Schema) :
    (redirect moves schema).value = withReferences (fun text => (Reference.target? moves text).getD text) schema := by
  induction schema using induction_subschemas with
  | bool value => rw [redirect_bool, withReferences_bool]
  | malformed value => rw [redirect_malformed, withReferences_malformed]
  | node n ih =>
    rw [redirect_node, withReferences_node]
    exact congrArg Schema.node (NodeOf.map_congr ih)

end

/-- Afterwards every keyword of the schema holds what it held before, but for the texts of references; what the root
carries along lacks the blocks, and nothing else. -/
inductive Settles : Schema → Schema → Prop
  | bool (value : Bool) : Settles (.bool value) (.bool value)
  | malformed (value : Json) : Settles (.malformed value) (.malformed value)
  | node {n : Node} {extra : Table Json} (f : String → String)
      (others : extra = n.extra.filter fun entry => !isBlock entry) :
      Settles (.node n) (withReferences f (.node { n with extra }))

theorem settles_of_withoutBlocks {schema : Schema} (distinct : schema.ExtraDistinct) (f : String → String) :
    schema.Settles (schema.withoutBlocks.withReferences f) := by
  cases schema with
  | bool value =>
    rw [show withoutBlocks (.bool value) = .bool value from rfl, withReferences_bool]
    exact .bool value
  | malformed value =>
    rw [show withoutBlocks (.malformed value) = .malformed value from rfl, withReferences_malformed]
    exact .malformed value
  | node n =>
    rw [withoutBlocks, NodeOf.withoutBlocks_eq]
    exact .node f (withoutBlockFields_eq_filter (Json.keysDistinct_object.mp (distinct n rfl)).1)

end Schema

/-- A schema comes to stand in the table as it was, less its blocks, and with other texts of references. -/
theorem Trail.settles_hoisted {t : Trail} (distinct : t.own.schema.ExtraDistinct) : t.own.schema.Settles t.hoisted := by
  have rewritten (owner : Owner) (schema : Schema) : ∃ f, owner.rewrite schema = schema.withReferences f :=
    Owner.rewrite_induction (P := fun s => ∃ f, s = schema.withReferences f) ⟨id, schema.withReferences_id.symm⟩
      fun moves => ⟨_, Schema.redirect_eq_withReferences moves schema⟩
  have around : ∃ f, Trail.received t.above t.own.schema.withoutBlocks = t.own.schema.withoutBlocks.withReferences f := by
    cases t.above with
    | nil => exact ⟨id, (Schema.withReferences_id _).symm⟩
    | cons parent others => exact rewritten parent _
  obtain ⟨f, received⟩ := around
  obtain ⟨g, own⟩ := rewritten t.own (Trail.received t.above t.own.schema.withoutBlocks)
  rw [Trail.hoisted, own, received, Schema.withReferences_withReferences]
  exact Schema.settles_of_withoutBlocks distinct (g ∘ f)

section

variable {plan : NameAllocator → String × Schema → Plan} {names : NameAllocator}

/-- The schemas of a list of trails. -/
def Trail.schemas (trails : List Trail) : List Schema := trails.map (·.own.schema)

theorem planEntries_schemas {table : Table Schema}
    (each : ∀ (names : NameAllocator), ∀ entry ∈ table,
      Trail.schemas (plan names entry).below = entry.2.nested.map fun inner => Schema.ofJson inner.2)
    (own : ∀ names entry, (plan names entry).trail.own.written = entry) (names : NameAllocator) :
    (planEntries plan names table).1.map (·.own.written) = table ∧
      Trail.schemas (planEntries plan names table).2.1 =
        (table.flatMap fun entry => entry.2.nested).map fun inner => Schema.ofJson inner.2 := by
  induction table generalizing names with
  | nil => exact ⟨rfl, rfl⟩
  | cons entry rest ih =>
    have first := each names entry List.mem_cons_self
    obtain ⟨heads, further⟩ := ih (fun names entry member => each names entry (List.mem_cons_of_mem _ member))
      (plan names entry).names
    simp only [Trail.schemas] at first heads further ⊢
    rw [planEntries, List.flatMap_cons, List.map_append]
    simp only [List.map_cons, List.map_append, own, heads, first, further, and_self]

theorem planWithin_written (levels : Nat) (above : List Owner) (names : NameAllocator) (entry : String × Schema) :
    (planWithin levels above names entry).trail.own.written = entry := by
  obtain ⟨name, schema, -⟩ := planWithin_own levels above names entry
  exact Prod.ext name schema

/-- Below a schema come the entries of its blocks, in the order in which they are listed, each as it is read. -/
theorem planWithin_schemas {levels : Nat} {entry : String × Schema} (enough : entry.2.blockLevels ≤ levels)
    (above : List Owner) (names : NameAllocator) : Trail.schemas (planWithin levels above names entry).below =
      entry.2.nested.map fun inner => Schema.ofJson inner.2 := by
  induction levels generalizing above names entry with
  | zero =>
    rw [Schema.nested_of_blockLevels_eq_zero (Nat.le_zero.mp enough)]
    rfl
  | succ levels ih =>
    obtain ⟨own, before, written, full, -, below⟩ := planWithin_succ levels above names entry
    have schema : own.schema = entry.2 := congrArg Prod.snd written
    have lower : ∀ inner ∈ own.inner, inner.2.blockLevels ≤ levels := by
      intro inner member
      obtain ⟨block, inside, same⟩ := Owner.mem_inner member
      rw [schema] at inside
      have less := Schema.blockLevels_lt_of_entry inside
      rw [same]
      omega
    obtain ⟨heads, further⟩ := planEntries_schemas
      (fun before inner member => ih (lower inner member) (own :: above) before)
      (planWithin_written levels (own :: above)) before
    have direct : own.inner.map (·.2) = own.schema.carried.map fun inner => Schema.ofJson inner.2 := by
      have whole : own.entries.map (·.1) = own.schema.blockEntries := List.map_fst_zip (Nat.le_of_eq full.symm)
      rw [Schema.carried_eq, ← whole, Owner.inner, List.map_map, List.map_map, List.map_map]
      rfl
    rw [Owner.nested_inner full, schema] at further
    have inner : Trail.schemas (planEntries (planWithin levels (own :: above)) before own.inner).1 = own.inner.map (·.2) := by
      conv_rhs => rw [← heads, List.map_map]
      rfl
    rw [below, Schema.nested_eq, List.map_append, ← further, ← schema, ← direct, ← inner]
    exact List.map_append

end

section

variable {definitions : Table Schema}

/-- In the table the definitions come first, and then all entries of all blocks, each settled. -/
theorem hoistDefinitions_settled (read : ∀ entry ∈ definitions, entry.2.ExtraDistinct) :
    ∃ owners added : Table Schema, hoistDefinitions definitions = (owners ++ added, !added.isEmpty) ∧
      List.Forall₂ (fun before after => after.1 = before.1 ∧ before.2.Settles after.2) definitions owners ∧
      List.Forall₂ (fun entry after => (Schema.ofJson entry.2).Settles after.2)
        (definitions.flatMap fun entry => entry.2.nested) added := by
  let names := NameAllocator.reserving (Table.keys definitions)
  let plan := fun names (entry : String × Schema) => planWithin entry.2.blockLevels [] names entry
  have settled : ∀ t ∈ (planEntries plan names definitions).1 ++ (planEntries plan names definitions).2.1,
      t.own.schema.Settles t.hoisted := fun t member => Trail.settles_hoisted (extraDistinct_of_mem_trails read member)
  obtain ⟨heads, below⟩ : (planEntries plan names definitions).1.map (·.own.written) = definitions ∧ _ :=
    planEntries_schemas (fun names entry _ => planWithin_schemas (Nat.le_refl _) [] names)
      (fun names entry => planWithin_written _ [] names entry) names
  have table : (hoistEntries Schema.hoist names definitions).1 ++ (hoistEntries Schema.hoist names definitions).2.1 =
      (planEntries plan names definitions).1.map Trail.entry ++
        (planEntries plan names definitions).2.1.map Trail.entry :=
    (hoistDefinitions_eq definitions).trans List.map_append
  obtain ⟨owners, added⟩ := List.append_inj table (by
    rw [length_hoistEntries, List.length_map]
    simpa only [List.length_map] using (congrArg List.length heads).symm)
  refine ⟨_, _, rfl, ?_, ?_⟩
  · change List.Forall₂ _ definitions (hoistEntries Schema.hoist names definitions).1
    conv =>
      arg 2
      rw [← heads]
    rw [owners, List.forall₂_map_left_iff, List.forall₂_map_right_iff, List.forall₂_same]
    exact fun t member => ⟨rfl, settled t (List.mem_append_left _ member)⟩
  · have pairs : List.Forall₂ (fun before (after : String × Schema) => Schema.Settles before after.2)
        (Trail.schemas (planEntries plan names definitions).2.1)
        ((planEntries plan names definitions).2.1.map Trail.entry) := by
      rw [Trail.schemas, List.forall₂_map_left_iff, List.forall₂_map_right_iff, List.forall₂_same]
      exact fun t member => settled t (List.mem_append_right _ member)
    rw [below, List.forall₂_map_left_iff, ← added] at pairs
    exact pairs

/-- Hoisting ends, and one call of it is enough. The loop takes one turn for every definition that there is afterwards. Then
no definition carries a block at its root; all definitions are what they were under their names; the entries of all blocks at
any depth of blocks are definitions, each under one new name; and hoisting again finds nothing to move. -/
theorem hoistDefinitions_complete (distinct : Table.Distinct definitions)
    (read : ∀ entry ∈ definitions, entry.2.ExtraDistinct) :
    ∃ owners added : Table Schema,
      hoistDefinitions definitions = (owners ++ added, !added.isEmpty) ∧
      (∃ last, Worklist.Reaches (owners ++ added).length (.start definitions) last ∧ last.turn = none ∧
        last.table = owners ++ added ∧ last.moved = !added.isEmpty) ∧
      Table.Distinct (owners ++ added) ∧
      (∀ entry ∈ owners ++ added, entry.2.Blockless) ∧
      List.Forall₂ (fun before after => after.1 = before.1 ∧ before.2.Settles after.2) definitions owners ∧
      List.Forall₂ (fun entry after => (Schema.ofJson entry.2).Settles after.2)
        (definitions.flatMap fun entry => entry.2.nested) added ∧
      hoistDefinitions (owners ++ added) = (owners ++ added, false) := by
  obtain ⟨owners, added, whole, kept, moved⟩ := hoistDefinitions_settled read
  have table : (hoistDefinitions definitions).1 = owners ++ added := by rw [whole]
  obtain ⟨last, run, ended, result⟩ := Worklist.reaches_hoistDefinitions distinct
  have different := distinct_hoistDefinitions distinct
  have blockless := blockless_hoistDefinitions read
  rw [table] at run different blockless
  rw [whole] at result
  exact ⟨owners, added, whole, ⟨last, run, ended, congrArg Prod.fst result, congrArg Prod.snd result⟩, different,
    blockless, kept, moved, hoistDefinitions_of_blockless blockless⟩

/-- A block in a block, a boolean entry, a name that is taken, and references to two of the entries: three definitions come
out of two blocks. -/
theorem hoistDefinitions_complete_leaf :
    let definitions : Table Schema :=
      [("Outer", Schema.ofJson (.object [("items", .object [("$ref", .string "#/$defs/Middle")]), ("title", .string "T"),
          ("$defs", .object [("Any", .bool true), ("Middle", .object [("$ref", .string "#/definitions/Leaf"),
            ("definitions", .object [("Leaf", .object [("type", .string "boolean")])])])])])),
        ("Leaf", Schema.ofJson (.object [("type", .string "string")]))]
    Table.Distinct definitions ∧ (∀ entry ∈ definitions, entry.2.ExtraDistinct) ∧
      (definitions.flatMap fun entry => entry.2.nested).length = 3 ∧
      hoistDefinitions definitions =
        ([("Outer", Schema.ofJson (.object [("items", .object [("$ref", .string "#/definitions/Middle")]),
            ("title", .string "T")])),
          ("Leaf", Schema.ofJson (.object [("type", .string "string")])), ("Any", .bool true),
          ("Middle", Schema.ofJson (.object [("$ref", .string "#/definitions/Leaf2")])),
          ("Leaf2", Schema.ofJson (.object [("type", .string "boolean")]))], true) ∧
      (∀ entry ∈ (hoistDefinitions definitions).1, entry.2.Blockless) ∧
      hoistDefinitions (hoistDefinitions definitions).1 = ((hoistDefinitions definitions).1, false) := by
  intro definitions
  have distinct : Table.Distinct definitions := by
    change ["Outer", "Leaf"].Nodup
    decide
  have read : ∀ entry ∈ definitions, entry.2.ExtraDistinct := by
    refine List.forall_mem_cons.mpr ⟨Schema.extraDistinct_ofJson ?_, List.forall_mem_cons.mpr
      ⟨Schema.extraDistinct_ofJson ?_, nofun⟩⟩ <;>
      simp [Json.KeysDistinct, Json.FieldsKeysDistinct, Table.Distinct]
  obtain ⟨owners, added, whole, -, -, blockless, -, -, again⟩ := hoistDefinitions_complete distinct read
  refine ⟨distinct, read, by decide +kernel, by cbv, ?_, ?_⟩ <;> rw [whole]
  · exact blockless
  · exact again

end

end Schemata
