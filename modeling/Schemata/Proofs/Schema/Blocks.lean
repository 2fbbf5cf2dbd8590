import Schemata.Pass.Hoist
import Schemata.Proofs.Json.Members
import Schemata.Proofs.Pass.Reference

namespace Schemata

/-- The entries other than an object under the keyword. -/
def withoutEntry (fields : Table Json) (keyword : String) : Table Json :=
  if ((fields.lookup keyword).bind Json.object?).isSome then Table.erase fields keyword else fields

/-- The entries of a node other than its blocks of definitions. -/
def withoutBlockFields (fields : Table Json) : Table Json := blockKeywords.foldl withoutEntry fields

/-- An object under one of the two keywords. -/
def isBlock (entry : String × Json) : Bool :=
  (entry.1 == "$defs" || entry.1 == "definitions") && entry.2.object?.isSome

namespace Schema

/-- Every entry of every block at the root, with the keyword of its block. -/
def blockEntries : Schema → List (String × String × Json)
  | .node n => n.blockEntries
  | _ => []

/-- The schema without the blocks at its root. -/
def withoutBlocks : Schema → Schema
  | .node n => .node n.withoutBlocks
  | schema => schema

/-- There are no blocks at the root. -/
def Blockless (schema : Schema) : Prop := ∀ n, schema = .node n → ∀ keyword ∈ blockKeywords, n.block? keyword = none

/-- The entries that the root carries along name nothing twice. -/
def ExtraDistinct (schema : Schema) : Prop := ∀ n, schema = .node n → (Json.object n.extra).KeysDistinct

/-- The root is as it is read: nothing that it carries along is named twice, and a malformed root is no object. -/
structure Proper (schema : Schema) : Prop where
  distinct : schema.ExtraDistinct
  unreadable : ∀ value, schema = .malformed value → value.object? = none

/-- Afterwards the root carries along what it carried before, less some names. -/
inductive Thinned : Schema → Schema → Prop
  | same (schema : Schema) : Thinned schema schema
  | node {n n' : Node} (kept : String → Bool) (extra : n'.extra = n.extra.filter fun entry => kept entry.1) :
      Thinned (.node n) (.node n')

end Schema

section

variable {fields : Table Json} {keyword : String}

theorem withoutEntry_eq_self (absent : (fields.lookup keyword).bind Json.object? = none) :
    withoutEntry fields keyword = fields := by
  rw [withoutEntry, absent]
  rfl

theorem withoutEntry_sublist (fields : Table Json) (keyword : String) : (withoutEntry fields keyword).Sublist fields := by
  rw [withoutEntry]
  split
  · exact Table.erase_sublist fields keyword
  · exact List.Sublist.refl fields

/-- What is taken out leaves a gap. -/
theorem absent_of_withoutEntry (same : withoutEntry fields keyword = fields) :
    (fields.lookup keyword).bind Json.object? = none := by
  by_contra present
  rw [← ne_eq, Option.ne_none_iff_isSome] at present
  have shorter := Table.length_erase_lt (show keyword ∈ Table.keys fields by
    rw [← Table.lookup_isSome_iff]
    exact Option.isSome_of_isSome_bind present)
  rw [withoutEntry, if_pos present] at same
  rw [same] at shorter
  exact Nat.lt_irrefl _ shorter

theorem withoutEntry_eq_filter (distinct : Table.Distinct fields) (keyword : String) :
    withoutEntry fields keyword = fields.filter fun entry => !(entry.1 == keyword && entry.2.object?.isSome) := by
  have held (entry : String × Json) (member : entry ∈ fields) (same : entry.1 = keyword) :
      (fields.lookup keyword).bind Json.object? = entry.2.object? := by
    rw [← same, Table.lookup_of_mem distinct member]
    rfl
  rw [withoutEntry]
  split
  · rename_i block
    rw [Table.erase_eq_filter distinct]
    refine List.filter_congr fun entry member => ?_
    by_cases same : entry.1 = keyword
    · rw [held entry member same] at block
      simp [block]
    · simp [same]
  · rename_i other
    refine (List.filter_eq_self.mpr fun entry member => ?_).symm
    by_cases same : entry.1 = keyword
    · rw [held entry member same] at other
      simp [other]
    · simp [same]

theorem withoutBlockFields_sublist (fields : Table Json) : (withoutBlockFields fields).Sublist fields :=
  (withoutEntry_sublist _ "definitions").trans (withoutEntry_sublist fields "$defs")

theorem withoutBlockFields_eq_filter (distinct : Table.Distinct fields) :
    withoutBlockFields fields = fields.filter fun entry => !isBlock entry := by
  simp only [withoutBlockFields, blockKeywords, List.foldl_cons, List.foldl_nil]
  rw [withoutEntry_eq_filter distinct, withoutEntry_eq_filter (distinct.sublist List.filter_sublist), List.filter_filter]
  refine List.filter_congr fun entry _ => ?_
  rw [isBlock, Bool.and_or_distrib_right, Bool.not_or, Bool.and_comm]

theorem lookup_withoutBlockFields (distinct : Table.Distinct fields) (block : keyword ∈ blockKeywords) :
    ((withoutBlockFields fields).lookup keyword).bind Json.object? = none := by
  rw [withoutBlockFields_eq_filter distinct, Option.bind_eq_none_iff]
  intro value found
  have kept := (List.mem_filter.mp (Table.mem_of_lookup found)).2
  rcases List.mem_pair.mp block with rfl | rfl <;> simpa [isBlock] using kept

theorem withoutBlockFields_eq_self_iff : withoutBlockFields fields = fields ↔
    ∀ keyword ∈ blockKeywords, (fields.lookup keyword).bind Json.object? = none := by
  constructor
  · intro (whole : withoutEntry (withoutEntry fields "$defs") "definitions" = fields)
    have inner := withoutEntry_sublist (withoutEntry fields "$defs") "definitions"
    rw [whole] at inner
    have first := (withoutEntry_sublist fields "$defs").antisymm inner
    rw [first] at whole
    intro keyword block
    rcases List.mem_pair.mp block with rfl | rfl
    · exact absent_of_withoutEntry first
    · exact absent_of_withoutEntry whole
  · intro absent
    have first := withoutEntry_eq_self (absent "$defs" (by decide))
    have second := withoutEntry_eq_self (absent "definitions" (by decide))
    rw [withoutBlockFields, blockKeywords, List.foldl_cons, first, List.foldl_cons, second, List.foldl_nil]

end

namespace NodeOf

variable {n : Node} {keyword entry : String} {value : Json}

theorem withoutBlock_eq (n : Node) (keyword : String) :
    n.withoutBlock keyword = { n with extra := withoutEntry n.extra keyword } := by
  rw [withoutBlock, block?, withoutEntry]
  split <;> rfl

theorem withoutBlocks_eq (n : Node) : n.withoutBlocks = { n with extra := withoutBlockFields n.extra } := by
  simp only [withoutBlocks, blockKeywords, List.foldl_cons, List.foldl_nil, withoutBlock_eq]
  rfl

theorem mem_blockEntries (member : (keyword, entry, value) ∈ n.blockEntries) :
    keyword ∈ blockKeywords ∧ ∃ fields, (keyword, .object fields) ∈ n.extra ∧ (entry, value) ∈ fields := by
  obtain ⟨keyword', block, inside⟩ := List.mem_flatMap.mp member
  obtain ⟨⟨entry', value'⟩, listed, same⟩ := List.mem_map.mp inside
  cases same
  refine ⟨block, ?_⟩
  cases found : n.block? keyword with
  | none =>
    rw [found] at listed
    cases listed
  | some fields =>
    rw [found] at listed
    obtain ⟨object, present, shape⟩ := Option.bind_eq_some_iff.mp found
    obtain rfl := Json.object?_eq_some_iff.mp shape
    exact ⟨fields, Table.mem_of_lookup present, listed⟩

end NodeOf

namespace Schema

variable {schema : Schema} {moves : List Reference.Move} {entry : String × String × Json}

theorem Blockless.withoutBlocks (blockless : schema.Blockless) : schema.withoutBlocks = schema := by
  cases schema with
  | node n =>
    rw [Schema.withoutBlocks, NodeOf.withoutBlocks_eq, withoutBlockFields_eq_self_iff.mpr (blockless n rfl)]
  | bool value => rfl
  | malformed value => rfl

theorem blockless_of_withoutBlocks (same : schema.withoutBlocks = schema) : schema.Blockless := by
  rintro n rfl keyword block
  rw [withoutBlocks, NodeOf.withoutBlocks_eq] at same
  have kept : withoutBlockFields n.extra = n.extra := congrArg NodeOf.extra (Schema.node.inj same)
  exact withoutBlockFields_eq_self_iff.mp kept keyword block

theorem Blockless.blockEntries (blockless : schema.Blockless) : schema.blockEntries = [] := by
  cases schema with
  | node n =>
    have absent := blockless n rfl
    simp only [blockKeywords, List.forall_mem_cons, List.not_mem_nil, false_implies, implies_true, and_true] at absent
    simp [Schema.blockEntries, NodeOf.blockEntries, blockKeywords, absent]
  | bool value => rfl
  | malformed value => rfl

theorem blockless_withoutBlocks (distinct : schema.ExtraDistinct) : schema.withoutBlocks.Blockless := by
  cases schema with
  | node n =>
    rintro _ ⟨⟩ keyword block
    rw [NodeOf.withoutBlocks_eq]
    exact lookup_withoutBlockFields (Json.keysDistinct_object.mp (distinct n rfl)).1 block
  | bool value => rintro _ ⟨⟩
  | malformed value => rintro _ ⟨⟩

theorem thinned_of_extra {n n' : Node} (same : n'.extra = n.extra) : (Schema.node n).Thinned (.node n') := by
  refine .node (fun _ => true) ?_
  rw [same, List.filter_eq_self.mpr fun _ _ => rfl]

theorem Thinned.blockless {after : Schema} (thinned : schema.Thinned after) (blockless : schema.Blockless) :
    after.Blockless := by
  cases thinned with
  | same => exact blockless
  | node kept extra =>
    rintro _ ⟨⟩ keyword block
    have before := blockless _ rfl keyword block
    rw [NodeOf.block?] at before
    rw [NodeOf.block?, extra, Table.lookup_filter]
    split
    · exact before
    · rfl

theorem Thinned.proper {after : Schema} (thinned : schema.Thinned after) (proper : schema.Proper) : after.Proper := by
  cases thinned with
  | same => exact proper
  | node kept extra =>
    refine ⟨?_, fun _ => nofun⟩
    rintro _ ⟨⟩
    rw [extra]
    exact (proper.distinct _ rfl).sublist List.filter_sublist

theorem Proper.withoutBlocks (proper : schema.Proper) : schema.withoutBlocks.Proper := by
  cases schema with
  | node n =>
    refine ⟨?_, fun _ => nofun⟩
    rintro _ ⟨⟩
    rw [NodeOf.withoutBlocks_eq]
    exact (proper.distinct n rfl).sublist (withoutBlockFields_sublist n.extra)
  | bool value => exact proper
  | malformed value => exact proper

/-- Redirecting keeps what the root carries along. -/
theorem redirect_node_extra (moves : List Reference.Move) (n : Node) :
    ∃ n', (redirect moves (.node n)).value = .node n' ∧ n'.extra = n.extra :=
  ⟨_, redirect_node n, rfl⟩

theorem thinned_redirect (moves : List Reference.Move) (schema : Schema) :
    schema.Thinned (redirect moves schema).value := by
  cases schema with
  | node n =>
    obtain ⟨n', same, extra⟩ := redirect_node_extra moves n
    rw [same]
    exact thinned_of_extra extra
  | bool value =>
    rw [redirect_bool]
    exact .same _
  | malformed value =>
    rw [redirect_malformed]
    exact .same _

theorem blockEntries_redirect (moves : List Reference.Move) (schema : Schema) :
    (redirect moves schema).value.blockEntries = schema.blockEntries := by
  cases schema with
  | node n =>
    obtain ⟨n', same, extra⟩ := redirect_node_extra moves n
    simp only [same, blockEntries, NodeOf.blockEntries, NodeOf.block?, extra]
  | bool value => rw [redirect_bool]
  | malformed value => rw [redirect_malformed]

theorem withoutBlocks_redirect (moves : List Reference.Move) (schema : Schema) :
    (redirect moves schema).value.withoutBlocks = (redirect moves schema.withoutBlocks).value := by
  cases schema with
  | node n =>
    rw [redirect_node, withoutBlocks, withoutBlocks, redirect_node, NodeOf.withoutBlocks_eq, NodeOf.withoutBlocks_eq]
    rfl
  | bool value =>
    rw [redirect_bool]
    exact (redirect_bool value).symm
  | malformed value =>
    rw [redirect_malformed]
    exact (redirect_malformed value).symm

theorem extra_sublist_ite {p : Prop} [Decidable p] {n n' : Node} {fields : Table Json}
    (first : n.extra.Sublist fields) (second : n'.extra.Sublist fields) :
    (if p then n else n').extra.Sublist fields := by
  split
  · exact first
  · exact second

/-- What a node carries along are entries of the object that it was read from. -/
theorem nodeOfFields_extra (fields : Table Json) : (nodeOfFields fields).extra.Sublist fields := by
  induction fields with
  | nil => exact List.Sublist.refl []
  | cons field rest ih =>
    obtain ⟨key, value⟩ := field
    unfold nodeOfFields
    generalize nodeOfFields rest = n at ih ⊢
    -- only the last branch puts the entry into the list
    iterate 18 refine extra_sublist_ite (ih.cons _) ?_
    exact ih.cons_cons _

theorem extraDistinct_ofJson {value : Json} (distinct : value.KeysDistinct) : (ofJson value).ExtraDistinct := by
  cases value with
  | object fields =>
    intro n same
    rw [ofJson] at same
    cases same
    exact distinct.sublist (nodeOfFields_extra fields)
  | _ => rintro _ ⟨⟩

theorem proper_ofJson {value : Json} (distinct : value.KeysDistinct) : (ofJson value).Proper := by
  refine ⟨extraDistinct_ofJson distinct, fun other same => ?_⟩
  cases value with
  | object fields => cases same
  | bool flag => cases same
  | _ =>
    cases same
    rfl

theorem ExtraDistinct.keysDistinct_of_entry (distinct : schema.ExtraDistinct) (member : entry ∈ schema.blockEntries) :
    entry.2.2.KeysDistinct := by
  cases schema with
  | node n =>
    obtain ⟨-, fields, block, inside⟩ := NodeOf.mem_blockEntries member
    exact ((distinct n rfl).of_mem block).of_mem inside
  | bool value => cases member
  | malformed value => cases member

/-- The schemas in the blocks are read as they stand there. -/
theorem ExtraDistinct.of_entry (distinct : schema.ExtraDistinct) (member : entry ∈ schema.blockEntries) :
    (ofJson entry.2.2).Proper :=
  proper_ofJson (distinct.keysDistinct_of_entry member)

theorem blockLevels_ofJson (value : Json) : (ofJson value).blockLevels ≤ 1 + value.depth := by
  cases value with
  | object fields =>
    have shorter := Json.depthOfFields_sublist (nodeOfFields_extra fields)
    rw [ofJson, blockLevels, Json.depth_object, Json.depth_object]
    omega
  | _ => exact Nat.zero_le _

/-- The levels that are counted for a schema are enough for its entries, too. -/
theorem blockLevels_lt_of_entry (member : entry ∈ schema.blockEntries) :
    (ofJson entry.2.2).blockLevels < schema.blockLevels := by
  cases schema with
  | node n =>
    obtain ⟨keyword, name, value⟩ := entry
    obtain ⟨-, fields, block, inside⟩ := NodeOf.mem_blockEntries member
    have outer := Json.depth_le_depthOfFields block
    have inner := Json.depth_le_depthOfFields inside
    have own := blockLevels_ofJson value
    rw [Json.depth_object] at outer
    rw [blockLevels, Json.depth_object]
    change (ofJson value).blockLevels < _
    omega
  | bool value => cases member
  | malformed value => cases member

end Schema

end Schemata
