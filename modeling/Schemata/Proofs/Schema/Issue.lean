import Schemata.Proofs.Schema.Acceptance
import Schemata.Proofs.Schema.Everywhere
import Schemata.Proofs.Schema.Place
import Schemata.Schema.Issue

namespace Schemata

/-- At the end of the path stands a value of the wrong shape: one that is no schema, or the value of a keyword. -/
inductive Schema.MalformedAt : Schema → Pointer → Json → Prop
  | position (value : Json) : MalformedAt (.malformed value) [] value
  | keyword {n : Node} {key : String} {value : Json} (misfit : (key, value) ∈ n.misfits) : MalformedAt (.node n) [key] value
  | inside {n : Node} {step path : Pointer} {child : Schema} {value : Json} (reached : (step, child) ∈ n.children .auxiliary)
      (further : MalformedAt child path value) : MalformedAt (.node n) (step ++ path) value

/-- The value, when the schema is none. -/
def Schema.malformed? : Schema → Option Json
  | .malformed value => some value
  | _ => none

/-- The values of the wrong shape without their places: the schema itself, and then, node by node, the keywords and the
subschemas. -/
def Schema.malformedValues (schema : Schema) : List Json :=
  schema.malformed?.toList ++ (schema.nodes .auxiliary).flatMap fun n =>
    n.misfits.map (·.2) ++ (n.subschemas .auxiliary).filterMap Schema.malformed?

/-- The issue of a schema at the end of a path. -/
def Issue.under (step : Pointer) (issue : Issue) : Issue := { issue with pointer := step ++ issue.pointer }

namespace Held

variable {S : Type}

/-- The schemas under a key, each with its path from the node. -/
def children (key : String) : Held S → List (Pointer × S)
  | .single schema => [([key], schema)]
  | .list schemas => Pointer.indexed key 0 schemas
  | .table entries => entries.map fun (name, schema) => ([key, name], schema)

/-- No name stands twice in a table. -/
def Distinct : Held S → Prop
  | .table entries => Table.Distinct entries
  | _ => True

/-- No path leads to both places. -/
def Apart (child child' : Pointer × S) : Prop := ∀ rest rest', child.1 ++ rest ≠ child'.1 ++ rest'

theorem mem_indexed {key : String} {start : Nat} {schemas : List S} {child : Pointer × S}
    (member : child ∈ Pointer.indexed key start schemas) :
    ∃ index, child.1 = [key, toString (start + index)] ∧ schemas[index]? = some child.2 := by
  induction schemas generalizing start with
  | nil => cases member
  | cons schema rest ih =>
    rw [Pointer.indexed, List.mem_cons] at member
    rcases member with rfl | later
    · exact ⟨0, rfl, rfl⟩
    · obtain ⟨index, path, found⟩ := ih later
      refine ⟨index + 1, ?_, by simpa using found⟩
      rw [path, Nat.add_right_comm, Nat.add_assoc]

theorem apart_indexed (key : String) (start : Nat) (schemas : List S) :
    (Pointer.indexed key start schemas).Pairwise Apart := by
  induction schemas generalizing start with
  | nil => exact List.Pairwise.nil
  | cons schema rest ih =>
    refine List.pairwise_cons.mpr ⟨fun child member p q same => ?_, ih (start + 1)⟩
    obtain ⟨index, path, -⟩ := mem_indexed member
    rw [path] at same
    have digits : toString start = toString (start + 1 + index) := by
      simp only [List.cons_append, List.cons.injEq] at same
      exact same.2.1
    have read := congrArg Pointer.index? digits
    rw [Pointer.index?_toString, Pointer.index?_toString] at read
    have := Option.some.inj read
    omega

/-- Paths to different schemas under a key part at the key or behind it. -/
theorem apart_children {held : Held S} (distinct : held.Distinct) (key : String) : (held.children key).Pairwise Apart := by
  cases held with
  | single schema => exact List.pairwise_singleton _ _
  | list schemas => exact apart_indexed key 0 schemas
  | table entries =>
    have names : entries.Pairwise fun entry entry' => entry.1 ≠ entry'.1 := List.pairwise_map.mp distinct
    refine List.pairwise_map.mpr (names.imp fun differ p q same => ?_)
    simp only [List.cons_append, List.cons.injEq] at same
    exact differ same.2.1

/-- The path to a schema under a key enters it. -/
theorem enter_children {held : Held S} {key : String} {child : Pointer × S} (distinct : held.Distinct)
    (member : child ∈ held.children key) :
    ∃ tail, child.1 = key :: tail ∧ ∀ rest, held.enter? (tail ++ rest) = some (child.2, rest) := by
  cases held with
  | single schema =>
    obtain rfl := List.mem_singleton.mp member
    exact ⟨[], rfl, fun rest => rfl⟩
  | list schemas =>
    obtain ⟨index, path, found⟩ := mem_indexed member
    rw [Nat.zero_add] at path
    refine ⟨[toString index], path, fun rest => ?_⟩
    rw [List.singleton_append, enter?, Pointer.index?_toString, Option.bind_some, found, Option.map_some]
  | table entries =>
    obtain ⟨entry, inside, rfl⟩ := List.mem_map.mp member
    refine ⟨[entry.1], rfl, fun rest => ?_⟩
    rw [List.singleton_append, enter?, Table.lookup_of_mem distinct inside, Option.map_some]

end Held

namespace NodeOf

variable {S : Type}

/-- The keywords that hold schemas, in the order of a walk. -/
def heldKeys : List String :=
  ["properties", "items", "additionalProperties", "allOf", "anyOf", "oneOf", "prefixItems", "if", "then", "else", "not",
    "additionalItems"]

/-- No property is declared twice. -/
def PropertiesDistinct (n : NodeOf S) : Prop := ∀ table, n.properties = some (.valid table) → Table.Distinct table

/-- A walk goes through what is held under each keyword. -/
theorem children_eq (n : NodeOf S) : n.children .auxiliary =
    heldKeys.flatMap fun key => (n.held? key).elim [] (Held.children key) := by
  have list (key : String) (slot : Option (Slot (List S))) :
      listChildren key slot = (Held.ofList? slot).elim [] (Held.children key) := by
    rcases slot with - | (schemas | value) <;> rfl
  have table (slot : Option (Slot (List (String × S)))) :
      tableChildren "properties" slot = (Held.ofTable? slot).elim [] (Held.children "properties") := by
    rcases slot with - | (entries | value) <;> rfl
  have items (items : Option (Items S)) : itemsChildren items = (Held.ofItems? items).elim [] (Held.children "items") := by
    rcases items with - | (schemas | schema) <;> rfl
  have single (key : String) (schema : Option S) :
      schemaChildren key schema = (schema.map Held.single).elim [] (Held.children key) := by
    cases schema <;> rfl
  simp only [children, heldKeys, List.flatMap_cons, List.flatMap_nil, List.append_nil, held?, list, table, items, single,
    List.append_assoc]

theorem distinct_of_held {n : NodeOf S} {key : String} {held : Held S} (distinct : n.PropertiesDistinct)
    (holds : n.held? key = some held) : held.Distinct := by
  have list {slot : Option (Slot (List S))} (given : Held.ofList? slot = some held) : held.Distinct := by
    rcases slot with - | (schemas | value) <;> cases given
    trivial
  have single {schema : Option S} (given : schema.map Held.single = some held) : held.Distinct := by
    cases schema <;> cases given
    trivial
  unfold held? at holds
  split at holds
  case h_1 =>
    rcases own : n.properties with - | (table | value) <;> rw [own] at holds <;> cases holds
    exact distinct table own
  case h_2 =>
    rcases own : n.items with - | (schemas | schema) <;> rw [own] at holds <;> cases holds <;> trivial
  case h_13 => cases holds
  all_goals first
    | exact list holds
    | exact single holds

variable {n : NodeOf S}

theorem mem_children_iff {child : Pointer × S} : child ∈ n.children .auxiliary ↔
    ∃ key ∈ heldKeys, ∃ held, n.held? key = some held ∧ child ∈ held.children key := by
  rw [children_eq, List.mem_flatMap]
  refine exists_congr fun key => and_congr_right fun _ => ?_
  cases n.held? key <;> simp

/-- The step to a subschema begins with the keyword that holds it, and enters it. -/
theorem enter_of_mem_children {step : Pointer} {child : S} (distinct : n.PropertiesDistinct)
    (member : (step, child) ∈ n.children .auxiliary) :
    (∃ key tail, step = key :: tail ∧ (n.held? key).isSome) ∧ ∀ rest, n.enter? (step ++ rest) = some (child, rest) := by
  obtain ⟨key, -, held, holds, inside⟩ := mem_children_iff.mp member
  obtain ⟨tail, rfl, enters⟩ := Held.enter_children (distinct_of_held distinct holds) inside
  refine ⟨⟨key, tail, rfl, Option.isSome_of_eq_some holds⟩, fun rest => ?_⟩
  rw [List.cons_append, enter?, holds, Option.bind_some, enters rest]

/-- No path leads through two subschemas of a node. -/
theorem apart_children (distinct : n.PropertiesDistinct) : (n.children .auxiliary).Pairwise Held.Apart := by
  rw [children_eq, List.pairwise_flatMap]
  constructor
  · intro key _
    cases holds : n.held? key with
    | none => exact List.Pairwise.nil
    | some held => exact Held.apart_children (distinct_of_held distinct holds) key
  · refine (show heldKeys.Nodup by decide).imp fun differ child inside child' inside' p q same => differ ?_
    have head {key : String} {child : Pointer × S} (inside : child ∈ (n.held? key).elim [] (Held.children key)) :
        ∃ tail, child.1 = key :: tail := by
      cases holds : n.held? key with
      | none =>
        rw [holds] at inside
        cases inside
      | some held =>
        rw [holds] at inside
        obtain ⟨tail, path, -⟩ := Held.enter_children (distinct_of_held distinct holds) inside
        exact ⟨tail, path⟩
    obtain ⟨tail, path⟩ := head inside
    obtain ⟨tail', path'⟩ := head inside'
    rw [path, path'] at same
    exact (List.cons.inj same).1

theorem mem_misfit {α : Type} {key : String} {slot : Option (Slot α)} {misfit' : String × Json}
    (member : misfit' ∈ misfit key slot) : misfit'.1 = key ∧ slot = some (.malformed misfit'.2) := by
  rcases slot with - | (own | own)
  · cases member
  · cases member
  · obtain rfl := List.mem_singleton.mp member
    exact ⟨rfl, rfl⟩

/-- A misfit is written as it is, and no schema is held under its key. -/
theorem written_of_misfit {n : Node} {key : String} {value : Json} (member : (key, value) ∈ n.misfits) :
    key ∈ keywords ∧ n.written key = some value ∧ n.held? key = none := by
  simp only [misfits, List.mem_append, or_assoc] at member
  rcases member with h | h | h | h | h | h | h | h | h | h <;> obtain ⟨rfl, given⟩ := mem_misfit h <;>
    exact ⟨by decide, by rw [written, given]; rfl, by simp only [held?, given]; try rfl⟩

/-- No keyword is a misfit twice. -/
theorem misfits_keys_nodup (n : NodeOf S) : (n.misfits.map (·.1)).Nodup := by
  have one {α : Type} (key : String) (slot : Option (Slot α)) : ((misfit key slot).map (·.1)).Sublist [key] := by
    rcases slot with - | (value | value)
    · exact List.nil_sublist _
    · exact List.nil_sublist _
    · exact List.Sublist.refl _
  have all : (n.misfits.map (·.1)).Sublist
      ["type", "enum", "properties", "required", "prefixItems", "allOf", "anyOf", "oneOf", "$ref", "nullable"] := by
    simp only [misfits, List.map_append]
    exact (((((((((one _ _).append (one _ _)).append (one _ _)).append (one _ _)).append (one _ _)).append
      (one _ _)).append (one _ _)).append (one _ _)).append (one _ _)).append (one _ _)
  exact (show List.Nodup _ by decide).sublist all

/-- The report goes through the misfits, in an order of its own. -/
theorem malformedKeywords_perm (n : Node) : (n.malformedKeywords.map fun entry => (entry.1, entry.2.2)).Perm n.misfits := by
  have present {α : Type} (key : String) {slot : Option (Slot α)} {value : Json}
      (given : slot.bind Slot.malformed? = some value) : [(key, value)] = misfit key slot := by
    rcases slot with - | (own | own) <;> cases given
    rfl
  have absent {α : Type} (key : String) {slot : Option (Slot α)} (none : slot.bind Slot.malformed? = none) :
      [] = misfit key slot := by
    rcases slot with - | (own | own)
    · rfl
    · rfl
    · cases none
  have shape : (n.malformedKeywords.map fun entry => (entry.1, entry.2.2)) =
      misfit "type" n.types ++ misfit "enum" n.enum ++ misfit "properties" n.properties ++ misfit "required" n.required
        ++ misfit "$ref" n.reference ++ misfit "nullable" n.nullable ++ misfit "allOf" n.allOf ++ misfit "anyOf" n.anyOf
        ++ misfit "oneOf" n.oneOf ++ misfit "prefixItems" n.prefixItems := by
    simp only [malformedKeywords, List.map_append]
    iterate 9 refine congrArg₂ (· ++ ·) ?_ ?_
    all_goals
      split
      · exact present _ ‹_›
      · exact absent _ ‹_›
  have turned (x y z : List (String × Json)) : (x ++ (y ++ z)).Perm (z ++ (y ++ x)) :=
    List.perm_append_comm.trans ((List.perm_append_comm.append_right x).trans (.of_eq (List.append_assoc ..)))
  rw [shape, misfits]
  simpa only [List.append_assoc] using (turned (misfit "$ref" n.reference ++ misfit "nullable" n.nullable)
    (misfit "allOf" n.allOf ++ misfit "anyOf" n.anyOf ++ misfit "oneOf" n.oneOf) (misfit "prefixItems" n.prefixItems)).append_left
    (misfit "type" n.types ++ misfit "enum" n.enum ++ misfit "properties" n.properties ++ misfit "required" n.required)

end NodeOf

namespace Schema

/-- The issues at the end of a path are those of the schema, each at the end of the path. -/
theorem issuesWithin_under (levels : Nat) (pointer : Pointer) (schema : Schema) :
    issuesWithin levels pointer schema = (issuesWithin levels [] schema).map (Issue.under pointer) := by
  induction levels generalizing pointer schema with
  | zero => cases schema <;> simp [issuesWithin, Issue.under]
  | succ levels ih =>
    cases schema with
    | bool value => rfl
    | malformed value => simp [issuesWithin, Issue.under]
    | node n =>
      rw [issuesWithin, issuesWithin, List.map_append, List.map_map, List.map_flatMap]
      congr 1
      refine List.flatMap_congr fun child _ => ?_
      have nested := ih ([] ++ child.1) child.2
      change issuesWithin levels (pointer ++ child.1) child.2 = (issuesWithin levels ([] ++ child.1) child.2).map _
      rw [ih, nested, List.map_map]
      refine List.map_congr_left fun issue _ => ?_
      simp [Issue.under]

theorem issuesWithin_eq {levels levels' : Nat} {pointer : Pointer} {schema : Schema} (enough : schema.height ≤ levels)
    (enough' : schema.height ≤ levels') : issuesWithin levels pointer schema = issuesWithin levels' pointer schema := by
  induction levels generalizing levels' pointer schema with
  | zero =>
    cases schema with
    | bool value => cases levels' <;> rfl
    | malformed value => cases levels' <;> rfl
    | node n => rw [Schema.height] at enough; omega
  | succ levels ih =>
    cases schema with
    | bool value => cases levels' <;> rfl
    | malformed value => cases levels' <;> rfl
    | node n =>
      rw [Schema.height] at enough enough'
      obtain ⟨levels', rfl⟩ : ∃ k, levels' = k + 1 := ⟨levels' - 1, by omega⟩
      rw [issuesWithin, issuesWithin]
      congr 1
      refine List.flatMap_congr fun child member => ?_
      have lower := height_le_nodeHeight (NodeOf.mem_auxiliary_of_mem (NodeOf.mem_of_mem_children member))
      exact ih (by omega) (by omega)

/-- The issues of a node: its keywords, and then the issues of its subschemas, each at the end of its step. -/
theorem issues_node (n : Node) : (Schema.node n).issues =
    (n.malformedKeywords.map fun entry =>
      ⟨[entry.1], s!"`{entry.1}` must be {entry.2.1}, found {entry.2.2.kindPhrase}"⟩) ++
    (n.children .auxiliary).flatMap fun child => child.2.issues.map (Issue.under child.1) := by
  rw [issues, Schema.height, Nat.add_comm, issuesWithin]
  congr 1
  refine List.flatMap_congr fun child member => ?_
  have lower := height_le_nodeHeight (NodeOf.mem_auxiliary_of_mem (NodeOf.mem_of_mem_children member))
  change issuesWithin (nodeHeight n) ([] ++ child.1) child.2 = _
  rw [issuesWithin_under, List.nil_append, issuesWithin_eq lower (Nat.le_refl _)]
  rfl

/-- No node declares a property twice. -/
def PropertiesDistinct (schema : Schema) : Prop := schema.Every .auxiliary NodeOf.PropertiesDistinct

section

variable {schema : Schema} {n : Node}

theorem pointers_node (n : Node) : (Schema.node n).issues.map (·.pointer) =
    ((n.malformedKeywords.map fun entry => (entry.1, entry.2.2)).map fun misfit => [misfit.1]) ++
      (n.children .auxiliary).flatMap fun child => (child.2.issues.map (·.pointer)).map (child.1 ++ ·) := by
  rw [issues_node, List.map_append, List.map_map, List.map_map, List.map_flatMap]
  simp only [List.map_map]
  rfl

/-- The malformed places of a node are its misfits and the malformed places of its subschemas. -/
theorem malformedAt_node_iff {path : Pointer} {value : Json} : (Schema.node n).MalformedAt path value ↔
    (∃ key, path = [key] ∧ (key, value) ∈ n.misfits) ∨
    ∃ child ∈ n.children .auxiliary, ∃ rest, path = child.1 ++ rest ∧ child.2.MalformedAt rest value := by
  constructor
  · intro there
    cases there with
    | keyword misfit => exact Or.inl ⟨_, rfl, misfit⟩
    | inside reached further => exact Or.inr ⟨_, reached, _, rfl, further⟩
  · rintro (⟨key, rfl, misfit⟩ | ⟨⟨step, child⟩, reached, rest, rfl, further⟩)
    · exact .keyword misfit
    · exact .inside reached further

/-- Something is reported at a path exactly when a malformed value stands there. -/
theorem mem_pointers_iff {path : Pointer} :
    path ∈ schema.issues.map (·.pointer) ↔ ∃ value, schema.MalformedAt path value := by
  induction schema using lowering_pure.induction generalizing path with
  | bool value =>
    constructor
    · exact nofun
    · rintro ⟨-, ⟨⟩⟩
  | malformed value =>
    constructor
    · intro member
      obtain rfl := List.mem_singleton.mp member
      exact ⟨value, .position value⟩
    · rintro ⟨-, ⟨⟩⟩
      exact List.mem_singleton_self []
  | node n ih =>
    have below {child : Pointer × Schema} (member : child ∈ n.children .auxiliary) {path : Pointer} :
        path ∈ child.2.issues.map (·.pointer) ↔ ∃ value, child.2.MalformedAt path value :=
      ih child.2 (NodeOf.mem_of_mem_children member)
    simp only [pointers_node, malformedAt_node_iff, List.mem_append, exists_or]
    refine or_congr ?_ ?_
    · constructor
      · intro member
        obtain ⟨⟨key, value⟩, inside, rfl⟩ := List.mem_map.mp member
        exact ⟨value, key, rfl, n.malformedKeywords_perm.mem_iff.mp inside⟩
      · rintro ⟨value, key, rfl, misfit⟩
        exact List.mem_map_of_mem (n.malformedKeywords_perm.mem_iff.mpr misfit)
    · constructor
      · intro member
        obtain ⟨child, reached, inside⟩ := List.mem_flatMap.mp member
        obtain ⟨rest, reported, rfl⟩ := List.mem_map.mp inside
        obtain ⟨value, further⟩ := (below reached).mp reported
        exact ⟨value, child, reached, rest, rfl, further⟩
      · rintro ⟨value, child, reached, rest, rfl, further⟩
        exact List.mem_flatMap.mpr ⟨child, reached, List.mem_map_of_mem ((below reached).mpr ⟨value, further⟩)⟩

/-- Nothing is reported twice. -/
theorem pointers_nodup (distinct : schema.PropertiesDistinct) : (schema.issues.map (·.pointer)).Nodup := by
  induction schema using lowering_pure.induction with
  | bool value => exact List.nodup_nil
  | malformed value => exact List.nodup_singleton _
  | node n ih =>
    obtain ⟨here, below⟩ := every_node.mp distinct
    rw [pointers_node]
    refine List.nodup_append.mpr ⟨?_, ?_, ?_⟩
    · have keys : ((n.malformedKeywords.map fun entry => (entry.1, entry.2.2)).map (·.1)).Nodup :=
        (n.malformedKeywords_perm.map _).nodup_iff.mpr n.misfits_keys_nodup
      have single := keys.map (f := fun key => [key]) fun key key' same => (List.cons.inj same).1
      rwa [List.map_map] at single
    · refine List.pairwise_flatMap.mpr ⟨fun child member => ?_, (NodeOf.apart_children here).imp ?_⟩
      · have inside := NodeOf.mem_of_mem_children member
        exact (ih child.2 inside (below child.2 inside)).map (List.append_right_injective child.1)
      · rintro child child' apart path member path' member' rfl
        obtain ⟨rest, -, same⟩ := List.mem_map.mp member
        obtain ⟨rest', -, same'⟩ := List.mem_map.mp member'
        exact apart rest rest' (same.trans same'.symm)
    · rintro path keyword path' inside rfl
      obtain ⟨⟨key, value⟩, misfit, rfl⟩ := List.mem_map.mp keyword
      obtain ⟨⟨step, child⟩, reached, tail⟩ := List.mem_flatMap.mp inside
      obtain ⟨rest, -, same⟩ := List.mem_map.mp tail
      obtain ⟨⟨key', more, rfl, held⟩, -⟩ := NodeOf.enter_of_mem_children here reached
      obtain rfl : key' = key := (List.cons.inj same).1
      rw [(NodeOf.written_of_misfit (n.malformedKeywords_perm.mem_iff.mp misfit)).2.2] at held
      cases held

/-- A malformed value stands at the end of its path in what is written for the schema. -/
theorem MalformedAt.resolve_toJson (distinct : schema.PropertiesDistinct) {path : Pointer} {value : Json}
    (there : schema.MalformedAt path value) : schema.toJson.resolve? path = some value := by
  induction there with
  | position value => rfl
  | keyword misfit =>
    obtain ⟨keyword, written, -⟩ := NodeOf.written_of_misfit misfit
    simp [toJson, Json.resolve?, Json.member?, lookup_nodeFields_of_written keyword written]
  | inside reached further ih =>
    obtain ⟨here, below⟩ := every_node.mp distinct
    rw [toJson, resolve_nodeFields ((NodeOf.enter_of_mem_children here reached).2 _)]
    exact ih (below _ (NodeOf.mem_of_mem_children reached))

/-- The values of a node: its misfits, and the values of its subschemas. -/
theorem malformedValues_node (n : Node) : (Schema.node n).malformedValues.Perm
    (n.misfits.map (·.2) ++ (n.subschemas .auxiliary).flatMap malformedValues) := by
  let values (n : Node) : List Json := n.misfits.map (·.2) ++ (n.subschemas .auxiliary).filterMap malformed?
  have split : ((n.subschemas .auxiliary).flatMap (fun s => s.malformed?.toList) ++
      (n.subschemas .auxiliary).flatMap fun s => (s.nodes .auxiliary).flatMap values).Perm
      ((n.subschemas .auxiliary).flatMap malformedValues) := List.flatMap_append_perm ..
  have whole : (Schema.node n).malformedValues = n.misfits.map (·.2) ++
      ((n.subschemas .auxiliary).flatMap (fun s => s.malformed?.toList) ++
        (n.subschemas .auxiliary).flatMap fun s => (s.nodes .auxiliary).flatMap values) := by
    rw [malformedValues, nodes_node, List.flatMap_cons, List.flatMap_assoc, List.filterMap_eq_flatMap_toList,
      List.append_assoc]
    rfl
  rw [whole]
  exact split.append_left _

/-- The reported paths lead to the malformed values, to each as often as it occurs. -/
theorem values_perm (distinct : schema.PropertiesDistinct) :
    (schema.issues.map fun issue => schema.toJson.resolve? issue.pointer).Perm (schema.malformedValues.map some) := by
  induction schema using lowering_pure.induction with
  | bool value => exact .refl _
  | malformed value => exact .refl _
  | node n ih =>
    obtain ⟨here, below⟩ := every_node.mp distinct
    have keywords : ((n.malformedKeywords.map fun entry => (entry.1, entry.2.2)).map fun misfit =>
        (Schema.node n).toJson.resolve? [misfit.1]).Perm (n.misfits.map fun misfit => some misfit.2) := by
      refine (n.malformedKeywords_perm.map _).trans (.of_eq (List.map_congr_left fun misfit member => ?_))
      exact MalformedAt.resolve_toJson distinct (.keyword member)
    have subschemas : ((n.children .auxiliary).flatMap fun child =>
        child.2.issues.map fun issue => (Schema.node n).toJson.resolve? (child.1 ++ issue.pointer)).Perm
        ((n.children .auxiliary).flatMap fun child => child.2.malformedValues.map some) := by
      refine List.Perm.flatMap_left _ fun child member => ?_
      have inside := NodeOf.mem_of_mem_children member
      refine (List.Perm.of_eq (List.map_congr_left fun issue _ => ?_)).trans (ih child.2 inside (below child.2 inside))
      rw [toJson, resolve_nodeFields ((NodeOf.enter_of_mem_children here member).2 _)]
    have values : ((n.misfits.map fun misfit => some misfit.2) ++
        (n.children .auxiliary).flatMap fun child => child.2.malformedValues.map some) =
        (n.misfits.map (·.2) ++ (n.subschemas .auxiliary).flatMap malformedValues).map some := by
      rw [List.map_append, List.map_map, List.map_flatMap, NodeOf.subschemas, List.flatMap_map]
      rfl
    rw [issues_node, List.map_append, List.map_map, List.map_flatMap]
    simp only [List.map_map] at keywords ⊢
    refine (keywords.append subschemas).trans ?_
    rw [values]
    exact ((malformedValues_node n).symm.map some)

end

end Schema

end Schemata
