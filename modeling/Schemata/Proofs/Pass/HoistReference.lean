import Schemata.Proofs.Json.Pointer
import Schemata.Proofs.Pass.HoistNames

namespace Schemata

namespace Reference

open Pointer (escape Below)

/-- The reference after the moves, made canonical where none of them concerns it. -/
def follow (moves : List Move) (reference : String) : String := (target? moves reference).getD reference

variable {keyword keyword' entry name tail target : String}

theorem canonicalStart_eq : canonicalStart = "#/" ++ "definitions" ++ "/" := rfl

theorem append_cancel_left {start one two : String} (same : start ++ one = start ++ two) : one = two := by
  have letters := congrArg String.toList same
  rw [String.toList_append, String.toList_append, List.append_cancel_left_eq] at letters
  exact String.toList_inj.mp letters

/-- The two keywords of blocks differ before the token starts. -/
theorem block_append_inj (block : keyword ∈ blockKeywords) (block' : keyword' ∈ blockKeywords)
    (same : "#/" ++ keyword ++ "/" ++ tail = "#/" ++ keyword' ++ "/" ++ target) :
    keyword = keyword' ∧ tail = target := by
  have keywords : keyword = keyword' := by
    have letters := congrArg String.toList same
    simp only [String.toList_append] at letters
    rcases List.mem_pair.mp block with rfl | rfl <;> rcases List.mem_pair.mp block' with rfl | rfl
    · rfl
    · simp at letters
    · simp at letters
    · rfl
  subst keywords
  exact ⟨rfl, append_cancel_left same⟩

/-- A block's move concerns the references to its entry and below it, and no others. -/
theorem redirected?_eq_some_iff (block : keyword ∈ blockKeywords) (block' : keyword' ∈ blockKeywords) :
    (Move.ofEntry keyword entry name).redirected? ("#/" ++ keyword' ++ "/" ++ tail) = some target ↔
      keyword = keyword' ∧ ∃ rest, Below rest ∧ tail = escape entry ++ rest ∧
        target = canonicalStart ++ (escape name ++ rest) := by
  have cut (rest : String) :
      Text.dropStart? ("#/" ++ keyword ++ "/" ++ escape entry) ("#/" ++ keyword' ++ "/" ++ tail) = some rest ↔
        keyword = keyword' ∧ tail = escape entry ++ rest := by
    rw [Text.dropStart?_eq_some_iff]
    constructor
    · intro same
      obtain ⟨keywords, tails⟩ := block_append_inj block' block (same.trans String.append_assoc)
      exact ⟨keywords.symm, tails⟩
    · rintro ⟨rfl, rfl⟩
      exact String.append_assoc.symm
  have below (rest : String) : (rest.isEmpty || Text.startsWith rest "/") ↔ Below rest := by
    rw [Bool.or_eq_true, String.isEmpty_iff, Text.startsWith_iff]
    rfl
  rw [Move.redirected?, Move.ofEntry]
  constructor
  · intro found
    split at found
    · rename_i rest same
      obtain ⟨keywords, tails⟩ := (cut rest).mp same
      by_cases inside : rest.isEmpty || Text.startsWith rest "/"
      · rw [if_pos inside] at found
        exact ⟨keywords, rest, (below rest).mp inside, tails,
          (Option.some.inj found).symm.trans String.append_assoc⟩
      · rw [if_neg inside] at found
        cases found
    · cases found
  · rintro ⟨keywords, rest, inside, tails, rfl⟩
    simp only [(cut rest).mpr ⟨keywords, tails⟩, (below rest).mpr inside, if_true]
    exact congrArg some String.append_assoc

theorem redirected?_components (block : keyword ∈ blockKeywords) :
    (Move.ofEntry keyword entry name).redirected? ("#/components/schemas/" ++ tail) = none := by
  have cut : Text.dropStart? ("#/" ++ keyword ++ "/" ++ escape entry) ("#/components/schemas/" ++ tail) = none := by
    refine Text.dropStart?_eq_none tail fun more more' => ?_
    rcases List.mem_pair.mp block with rfl | rfl <;> simp [String.toList_append]
  simp only [Move.redirected?, Move.ofEntry, cut]

theorem follow_nil_canonical (tail : String) : follow [] (canonicalStart ++ tail) = canonicalStart ++ tail := by
  rw [follow, target?_nil, canonical?_canonical, Option.getD_none]

theorem follow_nil_follow_nil (reference : String) : follow [] (follow [] reference) = follow [] reference := by
  cases moved : canonical? reference with
  | none => simp only [follow, target?_nil, moved, Option.getD_none]
  | some target =>
    simp only [follow, target?_nil, moved, Option.getD_some, canonical?_of_canonical? moved, Option.getD_none]

end Reference

namespace Owner

open Pointer (escape Below)
open Reference (canonicalStart follow)

/-- The name that an entry of one of the blocks gets. -/
def given? (owner : Owner) (keyword entry : String) : Option String :=
  (owner.entries.find? fun ((own, key, _), _) => own = keyword ∧ key = entry).map (·.2)

/-- The name that stands for `entry` after the entries of the blocks were moved. -/
def renamed (owner : Owner) (keyword entry : String) : String := (owner.given? keyword entry).getD entry

variable {owner : Owner} {keyword entry tail rest : String}

theorem block_of_mem {pair : (String × String × Json) × String} (member : pair ∈ owner.entries) :
    pair.1.1 ∈ blockKeywords := by
  have listed := (List.of_mem_zip member).1
  cases written : owner.schema with
  | node n =>
    rw [written] at listed
    exact (NodeOf.mem_blockEntries listed).1
  | bool value =>
    rw [written] at listed
    cases listed
  | malformed value =>
    rw [written] at listed
    cases listed

theorem findSome?_pairs {pairs : List ((String × String × Json) × String)}
    (blocks : ∀ pair ∈ pairs, pair.1.1 ∈ blockKeywords) (block : keyword ∈ blockKeywords) (below : Below rest) :
    (pairs.map fun ((own, key, _), name) => Reference.Move.ofEntry own key name).findSome?
        (·.redirected? ("#/" ++ keyword ++ "/" ++ (escape entry ++ rest))) =
      ((pairs.find? fun ((own, key, _), _) => own = keyword ∧ key = entry).map (·.2)).map
        fun name => canonicalStart ++ (escape name ++ rest) := by
  induction pairs with
  | nil => rfl
  | cons pair more ih =>
    obtain ⟨⟨own, key, value⟩, name⟩ := pair
    obtain ⟨first, others⟩ := List.forall_mem_cons.mp blocks
    rw [List.map_cons, List.findSome?_cons, List.find?_cons]
    by_cases same : own = keyword ∧ key = entry
    · obtain ⟨rfl, rfl⟩ := same
      have moved : (Reference.Move.ofEntry own key name).redirected? ("#/" ++ own ++ "/" ++ (escape key ++ rest)) =
          some (canonicalStart ++ (escape name ++ rest)) :=
        (Reference.redirected?_eq_some_iff block block).mpr ⟨rfl, rest, below, rfl, rfl⟩
      simp only [moved, and_self, decide_true, Option.map_some]
    · have still : (Reference.Move.ofEntry own key name).redirected?
          ("#/" ++ keyword ++ "/" ++ (escape entry ++ rest)) = none := by
        rw [Option.eq_none_iff_forall_ne_some]
        intro target moved
        obtain ⟨keywords, more, below', tails, -⟩ := (Reference.redirected?_eq_some_iff first block).mp moved
        exact same ⟨keywords, (Pointer.escape_append_inj below below' tails).1.symm⟩
      simp only [still, same, decide_false, ih others]

theorem findSome?_moves (block : keyword ∈ blockKeywords) (below : Below rest) :
    owner.moves.findSome? (·.redirected? ("#/" ++ keyword ++ "/" ++ (escape entry ++ rest))) =
      (owner.given? keyword entry).map fun name => canonicalStart ++ (escape name ++ rest) :=
  findSome?_pairs (fun _ => block_of_mem) block below

/-- A reference to an entry of a block, or below it, becomes canonical and follows the entry. -/
theorem follow_entry (owner : Owner) (block : keyword ∈ blockKeywords) (below : Below rest) :
    follow owner.moves ("#/" ++ keyword ++ "/" ++ (escape entry ++ rest)) =
      canonicalStart ++ (escape (owner.renamed keyword entry) ++ rest) := by
  rw [follow, Reference.target?, findSome?_moves block below, renamed]
  cases owner.given? keyword entry with
  | some name => rfl
  | none =>
    rw [Option.map_none, Option.none_or, Option.getD_none]
    rcases List.mem_pair.mp block with rfl | rfl
    · rw [show "#/" ++ "$defs" ++ "/" = "#/$defs/" from rfl, Reference.canonical?_defs, Option.getD_some]
    · rw [← Reference.canonicalStart_eq, Reference.canonical?_canonical, Option.getD_none]

theorem follow_components (owner : Owner) (tail : String) :
    follow owner.moves ("#/components/schemas/" ++ tail) = canonicalStart ++ tail := by
  have still : owner.moves.findSome? (·.redirected? ("#/components/schemas/" ++ tail)) = none := by
    rw [List.findSome?_eq_none_iff]
    intro move member
    obtain ⟨pair, inside, rfl⟩ := List.mem_map.mp member
    exact Reference.redirected?_components (block_of_mem inside)
  rw [follow, Reference.target?, still, Reference.canonical?_components]
  rfl

/-- Of a canonical reference that leads to an entry of the block `definitions`, only the name changes. -/
theorem follow_canonical_entry (owner : Owner) (below : Below rest) :
    follow owner.moves (canonicalStart ++ (escape entry ++ rest)) =
      canonicalStart ++ (escape (owner.renamed "definitions" entry) ++ rest) := by
  rw [Reference.canonicalStart_eq]
  exact owner.follow_entry (by decide) below

theorem follow_canonical_other (other : ∀ entry rest, Below rest → tail ≠ escape entry ++ rest) :
    follow owner.moves (canonicalStart ++ tail) = canonicalStart ++ tail := by
  have still : owner.moves.findSome? (·.redirected? (canonicalStart ++ tail)) = none := by
    rw [List.findSome?_eq_none_iff]
    intro move member
    obtain ⟨pair, inside, rfl⟩ := List.mem_map.mp member
    rw [Option.eq_none_iff_forall_ne_some]
    intro target moved
    rw [Reference.canonicalStart_eq] at moved
    obtain ⟨-, rest, below, tails, -⟩ :=
      (Reference.redirected?_eq_some_iff (block_of_mem inside) (by decide)).mp moved
    exact other _ rest below tails
  rw [follow, Reference.target?, still, Reference.canonical?_canonical]
  rfl

theorem renamed_eq_self_iff : owner.renamed keyword entry = entry ↔
    ∀ name, owner.given? keyword entry = some name → name = entry := by
  rw [renamed]
  cases owner.given? keyword entry with
  | none => simp
  | some name => simp

/-- A canonical reference stays as it is unless it leads to an entry of the block `definitions` that gets another
name. -/
theorem follow_canonical_iff (owner : Owner) (tail : String) :
    follow [] (follow owner.moves (canonicalStart ++ tail)) = canonicalStart ++ tail ↔
      ∀ entry rest name, Below rest → tail = escape entry ++ rest → owner.given? "definitions" entry = some name →
        name = entry := by
  by_cases concerned : ∃ entry rest, Below rest ∧ tail = escape entry ++ rest
  · obtain ⟨entry, rest, below, rfl⟩ := concerned
    rw [owner.follow_canonical_entry below, Reference.follow_nil_canonical]
    constructor
    · intro same entry' rest' name below' tails given
      obtain ⟨kept, -⟩ := Pointer.escape_append_inj below below (Reference.append_cancel_left same)
      obtain ⟨rfl, rfl⟩ := Pointer.escape_append_inj below below' tails
      exact renamed_eq_self_iff.mp kept name given
    · intro kept
      rw [renamed_eq_self_iff.mpr fun name given => kept entry rest name below rfl given]
  · rw [follow_canonical_other fun entry rest below tails => concerned ⟨entry, rest, below, tails⟩,
      Reference.follow_nil_canonical]
    refine ⟨fun _ entry rest name below tails => ?_, fun _ => rfl⟩
    exact absurd ⟨entry, rest, below, tails⟩ concerned

end Owner

namespace Schema

/-- The references of a schema, in the order of a walk. -/
def references (schema : Schema) : List String := (schema.nodes .auxiliary).filterMap NodeOf.referenceText?

theorem references_node (n : Node) : (Schema.node n).references =
    n.referenceText?.toList ++ (n.subschemas .auxiliary).flatMap references := by
  rw [references, nodes_node, List.filterMap_cons, List.filterMap_flatMap]
  cases n.referenceText? <;> rfl

theorem references_redirect (moves : List Reference.Move) (schema : Schema) :
    (redirect moves schema).value.references = schema.references.map (Reference.follow moves) := by
  induction schema using lowering_pure.induction with
  | bool value =>
    rw [redirect_bool]
    rfl
  | malformed value =>
    rw [redirect_malformed]
    rfl
  | node n ih =>
    have own : ((n.redirected moves).mapReach .auxiliary fun s => (redirect moves s).value).referenceText? =
        n.referenceText?.map (Reference.follow moves) := by
      change ((n.reference.map _).bind Slot.valid?) = (n.reference.bind Slot.valid?).map _
      rcases n.reference with - | (text | value) <;> rfl
    have below : (n.redirected moves).subschemas .auxiliary = n.subschemas .auxiliary := rfl
    have each : (n.subschemas .auxiliary).flatMap (fun s => (redirect moves s).value.references) =
        (n.subschemas .auxiliary).flatMap fun s => s.references.map (Reference.follow moves) :=
      List.flatMap_congr ih
    rw [redirect_node, references_node, references_node, own, NodeOf.subschemas_mapReach, below, List.flatMap_map,
      each, List.map_append, List.map_flatMap, Option.toList_map]

theorem references_withoutBlocks (schema : Schema) : schema.withoutBlocks.references = schema.references := by
  cases schema with
  | node n =>
    rw [withoutBlocks, NodeOf.withoutBlocks_eq, references_node, references_node]
    rfl
  | bool value => rfl
  | malformed value => rfl

end Schema

namespace Trail

open Pointer (escape Below)
open Reference (canonicalStart follow)

/-- What becomes of a reference in the schema at the end of the trail. -/
def resolve (trail : Trail) (reference : String) : String :=
  follow [] (follow trail.own.moves (match trail.above with
    | [] => reference
    | parent :: _ => follow parent.moves reference))

/-- The name that an entry's reference leads to: it is changed by the owner next around, if there is one, and then by
the block `definitions` of the schema itself. -/
def destination (trail : Trail) (keyword entry : String) : String :=
  match trail.above with
  | [] => trail.own.renamed keyword entry
  | parent :: _ => trail.own.renamed "definitions" (parent.renamed keyword entry)

/-- The name in the table of what `entry` means where the trail ends: the innermost owner with such an entry counts. -/
def meant? (trail : Trail) (keyword entry : String) : Option String :=
  (trail.own :: trail.above).findSome? (·.given? keyword entry)

variable {definitions : Table Schema} {trail : Trail} {keyword entry tail rest : String}

/-- In a schema of the table, every reference has become what the trail says. -/
theorem references_hoisted (member : trail ∈ trails definitions) :
    trail.hoisted.normalizeReferences.value.references = trail.own.schema.references.map trail.resolve := by
  have busy (parent : Owner) (others : List Owner) (above : trail.above = parent :: others) : parent.entries ≠ [] := by
    refine trails_induction (P := fun t => ∀ parent others, t.above = parent :: others → parent.entries ≠ [])
      (fun own _ _ => ?_) (fun outer own _ _ listed => ?_) member parent others above
    · rintro parent others ⟨⟩
    · rintro parent others ⟨⟩ empty
      rw [Owner.inner, empty] at listed
      cases listed
  have received : (received trail.above trail.own.schema.withoutBlocks).references =
      trail.own.schema.references.map fun reference => match trail.above with
        | [] => reference
        | parent :: _ => follow parent.moves reference := by
    cases above : trail.above with
    | nil => rw [Trail.received, Schema.references_withoutBlocks, List.map_id']
    | cons parent others =>
      rw [Trail.received, Owner.rewrite_of_ne_nil (busy parent others above), Schema.references_redirect,
        Schema.references_withoutBlocks]
  rw [Schema.normalizeReferences, Schema.references_redirect, hoisted]
  by_cases idle : trail.own.entries = []
  · have none : trail.own.moves = [] := by rw [Owner.moves, idle, List.map_nil]
    rw [Owner.rewrite_of_nil idle, received, List.map_map]
    refine List.map_congr_left fun reference _ => ?_
    rw [resolve, none, Reference.follow_nil_follow_nil]
    rfl
  · rw [Owner.rewrite_of_ne_nil idle, Schema.references_redirect, received, List.map_map, List.map_map]
    rfl

theorem resolve_entry (trail : Trail) (block : keyword ∈ blockKeywords) (below : Below rest) :
    trail.resolve ("#/" ++ keyword ++ "/" ++ (escape entry ++ rest)) =
      canonicalStart ++ (escape (trail.destination keyword entry) ++ rest) := by
  rw [resolve, destination]
  cases trail.above with
  | nil => rw [Owner.follow_entry _ block below, Reference.follow_nil_canonical]
  | cons parent others =>
    dsimp only
    rw [Owner.follow_entry parent block below, Owner.follow_canonical_entry _ below, Reference.follow_nil_canonical]

/-- A reference to a shared schema becomes canonical without a change of the name, unless a schema inside another one
has an entry of that name in its block `definitions`, and the entry gets another name. -/
theorem resolve_components_iff (trail : Trail) (tail : String) :
    trail.resolve ("#/components/schemas/" ++ tail) = canonicalStart ++ tail ↔ trail.above = [] ∨
      ∀ entry rest name, Below rest → tail = escape entry ++ rest →
        trail.own.given? "definitions" entry = some name → name = entry := by
  rw [resolve]
  cases trail.above with
  | nil =>
    rw [Owner.follow_components, Reference.follow_nil_canonical]
    exact ⟨fun _ => Or.inl rfl, fun _ => rfl⟩
  | cons parent others =>
    dsimp only
    rw [Owner.follow_components, Owner.follow_canonical_iff]
    refine ⟨Or.inr, fun either => ?_⟩
    rcases either with impossible | kept
    · cases impossible
    · exact kept

/-- A reference to an entry of the innermost owner that has it leads to where that entry went exactly when the two
owners that are asked agree with the innermost one. -/
theorem resolve_entry_iff (trail : Trail) (block : keyword ∈ blockKeywords) (below : Below rest) (name : String) :
    trail.resolve ("#/" ++ keyword ++ "/" ++ (escape entry ++ rest)) = canonicalStart ++ (escape name ++ rest) ↔
      trail.destination keyword entry = name := by
  rw [trail.resolve_entry block below]
  constructor
  · intro same
    exact (Pointer.escape_append_inj below below (Reference.append_cancel_left same)).1
  · rintro rfl
    rfl

theorem lookup_hoisted (distinct : Table.Distinct definitions) (member : trail ∈ trails definitions) :
    (hoistDefinitions definitions).1.lookup trail.own.name = some trail.hoisted := by
  refine Table.lookup_of_mem (distinct_hoistDefinitions distinct) ?_
  rw [hoistDefinitions_eq]
  exact List.mem_map_of_mem member

end Trail

/-- The table after hoisting and making all references canonical. -/
def hoistedTable (definitions : Table Schema) : Table Schema :=
  Table.mapValues (fun schema => schema.normalizeReferences.value) (hoistDefinitions definitions).1

open Pointer (escape Below) in
/-- All definitions, and all entries of their blocks at any depth, come to stand in the table. Each of their references
to a shared schema keeps its name exactly when the schema is a definition itself or does not move an entry of that name
out of its block `definitions` under another name. Each of their references to an entry that an owner around it
declares leads to where the entry of the innermost such owner went exactly when `Trail.destination` is that place. -/
theorem references_hoistedTable {definitions : Table Schema} (distinct : Table.Distinct definitions) :
    (∀ entry ∈ definitions, ∃ trail ∈ trails definitions, trail.above = [] ∧ trail.own.written = entry) ∧
    ∀ trail ∈ trails definitions,
      trail.own.Full ∧
      (∀ inner ∈ trail.own.inner, ∃ deeper ∈ trails definitions,
        deeper.above = trail.own :: trail.above ∧ deeper.own.written = inner) ∧
      ∃ schema, (hoistedTable definitions).lookup trail.own.name = some schema ∧
        List.Forall₂ (fun before after =>
          (∀ tail, before = "#/components/schemas/" ++ tail →
            (after = "#/definitions/" ++ tail ↔ trail.above = [] ∨
              ∀ entry rest name, Below rest → tail = escape entry ++ rest →
                trail.own.given? "definitions" entry = some name → name = entry)) ∧
          (∀ keyword ∈ blockKeywords, ∀ entry rest name, Below rest →
            before = "#/" ++ keyword ++ "/" ++ (escape entry ++ rest) → trail.meant? keyword entry = some name →
            (after = "#/definitions/" ++ (escape name ++ rest) ↔ trail.destination keyword entry = name)))
          trail.own.schema.references schema.references := by
  refine ⟨fun entry => exists_trail_of_mem, fun trail member => ?_⟩
  obtain ⟨full, inner⟩ := trails_closed member
  refine ⟨full, inner, trail.hoisted.normalizeReferences.value, ?_, ?_⟩
  · rw [hoistedTable, Table.lookup_mapValues, Trail.lookup_hoisted distinct member, Option.map_some]
  · rw [Trail.references_hoisted member, List.forall₂_map_right_iff, List.forall₂_same]
    intro reference _
    constructor
    · rintro tail rfl
      exact trail.resolve_components_iff tail
    · rintro keyword block entry rest name below rfl -
      exact trail.resolve_entry_iff block below name

/-- `Middle` refers to `Leaf` of its own block, which gets the name `Leaf2`, but is left with a reference to the other
`Leaf`: what moved out of the block of `Outer` was followed first, and made the reference canonical. -/
theorem references_hoistedTable_shadowed :
    let definitions : Table Schema :=
      [("Outer", Schema.ofJson (.object [("$defs", .object [("Middle", .object
          [("items", .object [("$ref", .string "#/$defs/Leaf")]),
            ("$defs", .object [("Leaf", .object [("type", .string "boolean")])])])])])),
        ("Leaf", Schema.ofJson (.object [("type", .string "string")]))]
    Table.Distinct definitions ∧ ∃ trail ∈ trails definitions, trail.own.name = "Middle" ∧
      trail.own.schema.references = ["#/$defs/Leaf"] ∧ trail.meant? "$defs" "Leaf" = some "Leaf2" ∧
      ∃ schema, (hoistedTable definitions).lookup "Middle" = some schema ∧
        schema.references ≠ ["#/definitions/Leaf2"] := by
  intro definitions
  have distinct : Table.Distinct definitions := by
    change ["Outer", "Leaf"].Nodup
    decide
  obtain ⟨-, all⟩ := references_hoistedTable distinct
  have third : (trails definitions)[2]?.map (fun trail => (trail.own.name, trail.own.schema.references,
      trail.meant? "$defs" "Leaf", trail.destination "$defs" "Leaf")) =
      some ("Middle", ["#/$defs/Leaf"], some "Leaf2", "Leaf") := by decide +kernel
  obtain ⟨trail, place, facts⟩ := Option.map_eq_some_iff.mp third
  simp only [Prod.mk.injEq] at facts
  obtain ⟨name, before, meant, destination⟩ := facts
  have member := List.mem_of_getElem? place
  obtain ⟨-, -, schema, found, each⟩ := all trail member
  refine ⟨distinct, trail, member, name, before, meant, schema, name ▸ found, fun after => ?_⟩
  rw [before, after, List.forall₂_cons] at each
  have leads := (each.1.2 "$defs" (by decide) "Leaf" "" "Leaf2" (Or.inl rfl) (by decide) meant).mp (by decide)
  rw [destination] at leads
  exact absurd leads (by decide)

end Schemata
