import Schemata.Proofs.Json.Pointer
import Schemata.Proofs.Schema.Issue
import Schemata.Proofs.Schema.Visit

namespace Schemata

section

variable {m : Type → Type} [Monad m]

/-- The step that shows a value to a visitor and keeps it. -/
def showing {S : Type} (visit : S → m PUnit) (s : S) : m S := do
  visit s
  return s

variable [LawfulMonad m]

namespace NodeOf

variable {S : Type} (visit : S → m PUnit)

theorem replaceList_showing (schemas : List S) :
    replaceList (showing visit) schemas = (do schemas.forM visit; return schemas) := by
  induction schemas with
  | nil => simp [replaceList]
  | cons schema rest ih => simp [replaceList, showing, ih]

theorem replaceTable_showing (table : List (String × S)) :
    replaceTable (showing visit) table = (do (table.map (·.2)).forM visit; return table) := by
  induction table with
  | nil => simp [replaceTable]
  | cons entry rest ih => simp [replaceTable, showing, ih]

theorem replaceListed_showing (slot : Option (Slot (List S))) :
    replaceSlot (replaceList (showing visit)) slot = (do (listed slot).forM visit; return slot) := by
  rcases slot with - | (schemas | value) <;> simp [replaceSlot, listed, replaceList_showing]

theorem replaceDeclared_showing (slot : Option (Slot (List (String × S)))) :
    replaceSlot (replaceTable (showing visit)) slot = (do (declared slot).forM visit; return slot) := by
  rcases slot with - | (table | value) <;> simp [replaceSlot, declared, replaceTable_showing]

theorem replaceItems_showing (items : Option (Items S)) :
    replaceItems (showing visit) items = (do (elements items).forM visit; return items) := by
  rcases items with - | (schemas | schema)
  · simp [replaceItems, elements]
  · simp [replaceItems, elements, replaceList_showing]
  · simp [replaceItems, elements, showing]

theorem replaceSchema_showing (schema : Option S) :
    replaceSchema (showing visit) schema = (do schema.toList.forM visit; return schema) := by
  cases schema <;> simp [replaceSchema, showing]

/-- Replacing every child by itself only shows the children, in the order in which they are listed. -/
theorem replaceChildren_showing (reach : Reach) (n : NodeOf S) :
    n.replaceChildren reach (showing visit) = (do (n.subschemas reach).forM visit; return n) := by
  cases reach <;>
    simp [replaceChildren, replaceListed_showing, replaceDeclared_showing, replaceItems_showing, replaceSchema_showing,
      subschemas_auxiliary, subschemas_keywords]

end NodeOf

namespace Schema

variable {reach : Reach}

theorem mapWithin_showing (visit : Node → m PUnit) (levels : Nat) (schema : Schema) :
    mapWithin reach (showing visit) levels schema = showing (visitWithin reach visit levels) schema := by
  induction levels generalizing schema with
  | zero => cases schema <;> simp [mapWithin, visitWithin, showing]
  | succ levels ih =>
    cases schema with
    | bool value => simp [mapWithin, visitWithin, showing]
    | malformed value => simp [mapWithin, visitWithin, showing]
    | node n =>
      have below : mapWithin reach (showing visit) levels = showing (visitWithin reach visit levels) := funext ih
      have listed : (n.subschemas reach).forM (visitWithin reach visit levels) =
          (n.children reach).forM fun child => visitWithin reach visit levels child.2 := by
        simp [NodeOf.subschemas]
      simp only [mapWithin, below, NodeOf.replaceChildren_showing, listed, visitWithin, showing, bind_assoc, pure_bind]

/-- A changing walk whose step keeps every node is a reading walk. -/
theorem mapNodes_showing (visit : Node → m PUnit) (schema : Schema) :
    schema.mapNodes reach (showing visit) = showing (visitNodes reach visit) schema :=
  mapWithin_showing visit schema.height schema

end Schema

end

namespace Schema

variable {reach : Reach} {limit : Nat}

/-- The visitor that writes down the nodes that it is shown. -/
def record (n : Node) : StateM (List Node) PUnit := modify (· ++ [n])

theorem forM_record (nodes seen : List Node) : (nodes.forM record).run seen = (⟨⟩, seen ++ nodes) := by
  induction nodes generalizing seen with
  | nil => exact congrArg (PUnit.unit, ·) (List.append_nil seen).symm
  | cons n rest ih => simpa [record] using ih (seen ++ [n])

theorem visitNodes_record (schema : Schema) : (schema.visitNodes reach record).run [] = (⟨⟩, schema.nodes reach) := by
  rw [visitNodes_eq, forM_record, List.nil_append]

/-- The visitor that writes down the nodes that it is shown, and breaks the walk off once there are so many of them. -/
def countdown (limit : Nat) (n : Node) : ExceptT Unit (StateM (List Node)) PUnit := do
  record n
  if limit ≤ (← get).length then throw ()

theorem countdown_run (limit : Nat) (n : Node) (seen : List Node) : (countdown limit n).run.run seen =
    (if limit ≤ seen.length + 1 then .error () else .ok ⟨⟩, seen ++ [n]) := by
  change StateT.run (ExceptT.run (if limit ≤ (seen ++ [n]).length then throw () else pure PUnit.unit)) (seen ++ [n]) = _
  rw [List.length_append, List.length_singleton]
  split_ifs <;> rfl

theorem forM_countdown (nodes seen : List Node) (before : seen.length < limit) :
    (nodes.forM (countdown limit)).run.run seen =
      (if limit ≤ seen.length + nodes.length then .error () else .ok ⟨⟩, seen ++ nodes.take (limit - seen.length)) := by
  induction nodes generalizing seen with
  | nil =>
    rw [if_neg (by simpa using before), List.take_nil, List.append_nil]
    rfl
  | cons n rest ih =>
    rw [List.forM_eq_forM, List.forM_cons, ExceptT.run_bind, StateT.run_bind, countdown_run]
    by_cases reached : limit ≤ seen.length + 1
    · have one : limit - seen.length = 1 := by omega
      rw [if_pos reached, if_pos (by simp; omega), one]
      rfl
    · have more : limit - seen.length = limit - (seen ++ [n]).length + 1 := by simp; omega
      have length : seen.length + (n :: rest).length = (seen ++ [n]).length + rest.length := by simp; omega
      rw [if_neg reached, more, length, List.take_succ_cons, List.append_cons seen n (rest.take _)]
      exact ih (seen ++ [n]) (by simpa using reached)

theorem visitNodes_countdown (schema : Schema) (some : 0 < limit) :
    (schema.visitNodes reach (countdown limit)).run.run [] =
      (if limit ≤ (schema.nodes reach).length then .error () else .ok ⟨⟩, (schema.nodes reach).take limit) := by
  rw [visitNodes_eq, forM_countdown _ [] some]
  simp

end Schema

namespace NodeOf

variable {S : Type} {reach : Reach}

theorem children_sublist (reach : Reach) (n : NodeOf S) : (n.children reach).Sublist (n.children .auxiliary) := by
  cases reach with
  | auxiliary => exact List.Sublist.refl _
  | keywords => exact (List.Sublist.refl _).append (List.nil_sublist _)

/-- The written paths to the subschemas of a node are different. -/
theorem texts_nodup {n : NodeOf S} (distinct : n.PropertiesDistinct) :
    ((n.children reach).map fun child => child.1.text).Nodup := by
  refine List.pairwise_map.mpr (((apart_children distinct).sublist (children_sublist reach n)).imp ?_)
  intro child child' apart same
  exact apart [] [] (congrArg (· ++ []) (Pointer.text_injective same))

/-- The written path to a subschema leads to what is written for the subschema. -/
theorem pointer?_of_mem_children {n : Node} {child : Pointer × Schema} (distinct : n.PropertiesDistinct)
    (member : child ∈ n.children reach) : (Schema.node n).toJson.pointer? child.1.text = some child.2.toJson := by
  have enter := (enter_of_mem_children distinct ((children_sublist reach n).subset member)).2 []
  rw [List.append_nil] at enter
  rw [Json.pointer?_text, Schema.toJson, Schema.resolve_nodeFields enter]
  rfl

end NodeOf

/-- A changing walk whose step keeps every node is the reading walk with the same visitor, in every monad; both show the
visitor exactly the listed nodes, in their order. A reading walk that is to be broken off after so many nodes has met the
first so many of them, and is broken off when there are that many. In what is written for a node, the paths to its
subschemas are different and lead to the subschemas. -/
theorem Schema.walk_nodes (reach : Reach) (schema : Schema) :
    (∀ (m : Type → Type) [Monad m] [LawfulMonad m] (visit : Node → m PUnit),
      schema.mapNodes reach (showing visit) = showing (visitNodes reach visit) schema) ∧
    (schema.visitNodes reach record).run [] = (⟨⟩, schema.nodes reach) ∧
    (schema.mapNodes reach (showing record)).run [] = (schema, schema.nodes reach) ∧
    (∀ limit, 0 < limit → (schema.visitNodes reach (countdown limit)).run.run [] =
      (if limit ≤ (schema.nodes reach).length then .error () else .ok ⟨⟩, (schema.nodes reach).take limit)) ∧
    ∀ n : Node, n.PropertiesDistinct →
      ((n.children reach).map fun child => child.1.text).Nodup ∧
      ∀ child ∈ n.children reach, (Schema.node n).toJson.pointer? child.1.text = some child.2.toJson := by
  refine ⟨fun m _ _ visit => mapNodes_showing visit schema, visitNodes_record schema, ?_,
    fun limit some => visitNodes_countdown schema some,
    fun n distinct => ⟨NodeOf.texts_nodup distinct, fun child member => NodeOf.pointer?_of_mem_children distinct member⟩⟩
  rw [mapNodes_showing, showing, StateT.run_bind, visitNodes_record]
  rfl

/-- A node with a property whose name has a slash, a node under `not`, and a list under `items`. -/
theorem Schema.walk_nodes_slash :
    let inner : Node := { not := some (.bool false) }
    let n : Node := { properties := some (.valid [("a/b", .node inner)]), items := some (.positional [.bool true]) }
    (mapNodes .keywords (showing record) (.node n)).run [] = (showing (visitNodes .keywords record) (.node n)).run [] ∧
    (visitNodes .auxiliary (countdown 2) (.node n)).run.run [] = (.error (), [n, inner]) ∧
    (Schema.node n).toJson.pointer? "/properties/a~1b" = some (Schema.node inner).toJson ∧
    (Schema.node n).toJson.pointer? "/items/0" = some (.bool true) := by
  intro inner n
  have distinct : n.PropertiesDistinct := by
    rintro table ⟨⟩
    exact List.nodup_singleton _
  have nodes : (Schema.node n).nodes .auxiliary = [n, inner] := by
    have outside : n.subschemas .auxiliary = [.node inner, .bool true] := rfl
    have inside : inner.subschemas .auxiliary = [.bool false] := rfl
    simp [nodes_node, outside, inside]
  have first := (walk_nodes .auxiliary (.node n)).2.2.2.1 2 (by decide)
  have children := ((walk_nodes .auxiliary (.node n)).2.2.2.2 n distinct).2
  rw [nodes] at first
  refine ⟨?_, ?_, ?_, ?_⟩
  · rw [(walk_nodes .keywords (.node n)).1 _ record]
  · exact first
  · exact children (["properties", "a/b"], .node inner) List.mem_cons_self
  · exact children (["items", "0"], .bool true) (List.mem_cons_of_mem _ List.mem_cons_self)

end Schemata
