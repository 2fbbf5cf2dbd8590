import Mathlib.Order.MinMax
import Schemata.Pass.Noted
import Schemata.Proofs.Schema.Subschemas

namespace Schemata

namespace Noted

variable {α β : Type}

@[simp] theorem pure_value (a : α) : (pure a : Noted α).value = a := rfl

@[simp] theorem pure_changed (a : α) : (pure a : Noted α).changed = false := rfl

@[simp] theorem bind_value (x : Noted α) (f : α → Noted β) : (x >>= f).value = (f x.value).value := rfl

@[simp] theorem bind_changed (x : Noted α) (f : α → Noted β) :
    (x >>= f).changed = (x.changed || (f x.value).changed) := rfl

/-- Only what is done with the value itself matters. -/
theorem bind_congr {x : Noted α} {f g : α → Noted β} (same : f x.value = g x.value) : x >>= f = x >>= g := by
  change Noted.mk _ _ _ = Noted.mk _ _ _
  rw [same]

end Noted

namespace NodeOf

variable {S : Type}

theorem replaceList_value (f : S → Noted S) (schemas : List S) :
    (replaceList f schemas).value = schemas.map fun s => (f s).value := by
  induction schemas with
  | nil => rfl
  | cons schema rest ih => simp only [replaceList, Noted.bind_value, Noted.pure_value, ih, List.map_cons]

theorem replaceList_changed (f : S → Noted S) (schemas : List S) :
    (replaceList f schemas).changed = schemas.any fun s => (f s).changed := by
  induction schemas with
  | nil => rfl
  | cons schema rest ih =>
    simp only [replaceList, Noted.bind_changed, Noted.pure_changed, ih, List.any_cons, Bool.or_false]

theorem replaceTable_value (f : S → Noted S) (table : List (String × S)) :
    (replaceTable f table).value = Table.mapValues (fun s => (f s).value) table := by
  induction table with
  | nil => rfl
  | cons entry rest ih =>
    simp only [replaceTable, Noted.bind_value, Noted.pure_value, ih, Table.mapValues, List.map_cons]

theorem replaceTable_changed (f : S → Noted S) (table : List (String × S)) :
    (replaceTable f table).changed = (table.map (·.2)).any fun s => (f s).changed := by
  induction table with
  | nil => rfl
  | cons entry rest ih =>
    simp only [replaceTable, Noted.bind_changed, Noted.pure_changed, ih, List.map_cons, List.any_cons,
      Bool.or_false]

theorem replaceSlot_listed (f : S → Noted S) (slot : Option (Slot (List S))) :
    (replaceSlot (replaceList f) slot).value = slot.map (Slot.map (List.map fun s => (f s).value)) ∧
      (replaceSlot (replaceList f) slot).changed = (listed slot).any fun s => (f s).changed := by
  rcases slot with - | (schemas | value)
  · exact ⟨rfl, rfl⟩
  · simp [replaceSlot, replaceList_value, replaceList_changed, listed, Slot.map]
  · exact ⟨rfl, rfl⟩

theorem replaceSlot_declared (f : S → Noted S) (slot : Option (Slot (List (String × S)))) :
    (replaceSlot (replaceTable f) slot).value = slot.map (Slot.map (Table.mapValues fun s => (f s).value)) ∧
      (replaceSlot (replaceTable f) slot).changed = (declared slot).any fun s => (f s).changed := by
  rcases slot with - | (table | value)
  · exact ⟨rfl, rfl⟩
  · simp only [replaceSlot, Noted.bind_value, Noted.bind_changed, Noted.pure_value, Noted.pure_changed,
      replaceTable_value, replaceTable_changed, declared, Option.map_some, Slot.map, Bool.or_false, and_self]
  · exact ⟨rfl, rfl⟩

theorem replaceItems_elements (f : S → Noted S) (items : Option (Items S)) :
    (replaceItems f items).value = items.map (Items.map fun s => (f s).value) ∧
      (replaceItems f items).changed = (elements items).any fun s => (f s).changed := by
  rcases items with - | (schemas | schema)
  · exact ⟨rfl, rfl⟩
  · simp [replaceItems, replaceList_value, replaceList_changed, elements, Items.map]
  · simp [replaceItems, elements, Items.map]

theorem replaceSchema_option (f : S → Noted S) (schema : Option S) :
    (replaceSchema f schema).value = (schema.map fun s => (f s).value) ∧
      (replaceSchema f schema).changed = schema.toList.any fun s => (f s).changed := by
  cases schema <;> simp [replaceSchema]

/-- Replacing the children gives every subschema within reach its image. -/
theorem replaceChildren_value (reach : Reach) (f : S → Noted S) (n : NodeOf S) :
    (n.replaceChildren reach f).value = n.mapReach reach fun s => (f s).value := by
  cases reach <;>
    simp only [replaceChildren, Noted.bind_value, Noted.pure_value, replaceSlot_listed, replaceSlot_declared,
      replaceItems_elements, replaceSchema_option, mapReach, mapBoth, Option.map_id, id_eq]

/-- Replacing the children reports a change when one of them does. -/
theorem replaceChildren_changed (reach : Reach) (f : S → Noted S) (n : NodeOf S) :
    (n.replaceChildren reach f).changed = (n.subschemas reach).any fun s => (f s).changed := by
  cases reach <;>
    simp only [replaceChildren, Noted.bind_changed, Noted.pure_changed, replaceSlot_listed, replaceSlot_declared,
      replaceItems_elements, replaceSchema_option, subschemas_auxiliary, subschemas_keywords,
      List.any_append, Bool.or_assoc, Bool.or_false]

section

variable {m : Type → Type} [Monad m]

theorem replaceList_congr {f g : S → m S} {schemas : List S} (same : ∀ s ∈ schemas, f s = g s) :
    replaceList f schemas = replaceList g schemas := by
  induction schemas with
  | nil => rfl
  | cons schema rest ih =>
    have first := same schema List.mem_cons_self
    have others := ih fun s member => same s (List.mem_cons_of_mem _ member)
    simp only [replaceList, first, others]

theorem replaceTable_congr {f g : S → m S} {table : List (String × S)} (same : ∀ s ∈ table.map (·.2), f s = g s) :
    replaceTable f table = replaceTable g table := by
  induction table with
  | nil => rfl
  | cons entry rest ih =>
    have first := same entry.2 List.mem_cons_self
    have others := ih fun s member => same s (List.mem_cons_of_mem _ member)
    simp only [replaceTable, first, others]

theorem replaceListed_congr {f g : S → m S} {slot : Option (Slot (List S))}
    (same : ∀ s ∈ listed slot, f s = g s) : replaceSlot (replaceList f) slot = replaceSlot (replaceList g) slot := by
  rcases slot with - | (schemas | value)
  · rfl
  · have schemas := replaceList_congr same
    simp only [listed] at schemas
    simp only [replaceSlot, schemas]
  · rfl

theorem replaceDeclared_congr {f g : S → m S} {slot : Option (Slot (List (String × S)))}
    (same : ∀ s ∈ declared slot, f s = g s) :
    replaceSlot (replaceTable f) slot = replaceSlot (replaceTable g) slot := by
  rcases slot with - | (table | value)
  · rfl
  · simp only [replaceSlot, replaceTable_congr same]
  · rfl

theorem replaceItems_congr {f g : S → m S} {items : Option (Items S)} (same : ∀ s ∈ elements items, f s = g s) :
    replaceItems f items = replaceItems g items := by
  rcases items with - | (schemas | schema)
  · rfl
  · have schemas := replaceList_congr same
    simp only [elements] at schemas
    simp only [replaceItems, schemas]
  · simp only [replaceItems, same schema (List.mem_singleton_self schema)]

theorem replaceSchema_congr {f g : S → m S} {schema : Option S} (same : ∀ s ∈ schema.toList, f s = g s) :
    replaceSchema f schema = replaceSchema g schema := by
  cases schema with
  | none => rfl
  | some schema => simp only [replaceSchema, same schema (List.mem_singleton_self schema)]

/-- Only what is done with the subschemas within reach matters. -/
theorem replaceChildren_congr {reach : Reach} {f g : S → m S} {n : NodeOf S}
    (same : ∀ s ∈ n.subschemas reach, f s = g s) : n.replaceChildren reach f = n.replaceChildren reach g := by
  have near : ∀ s ∈ n.subschemas .keywords, f s = g s := by
    intro s member
    cases reach with
    | keywords => exact same s member
    | auxiliary => exact same s (subschemas_auxiliary n ▸ List.mem_append_left _ member)
  simp only [subschemas_keywords, List.forall_mem_append] at near
  obtain ⟨⟨⟨⟨⟨⟨⟨⟨⟨properties, items⟩, additionalProperties⟩, allOf⟩, anyOf⟩, oneOf⟩, prefixItems⟩, condition⟩,
    consequent⟩, alternative⟩ := near
  simp only [replaceChildren, replaceDeclared_congr properties, replaceItems_congr items,
    replaceSchema_congr additionalProperties, replaceListed_congr allOf, replaceListed_congr anyOf,
    replaceListed_congr oneOf, replaceListed_congr prefixItems, replaceSchema_congr condition,
    replaceSchema_congr consequent, replaceSchema_congr alternative]
  cases reach with
  | keywords => rfl
  | auxiliary =>
    simp only [subschemas_auxiliary, List.forall_mem_append] at same
    simp only [replaceSchema_congr same.2.1, replaceSchema_congr same.2.2]

end

end NodeOf

namespace Schema

theorem height_le_listHeight {schemas : List Schema} {s : Schema} (member : s ∈ schemas) :
    s.height ≤ listHeight schemas := by
  induction schemas with
  | nil => cases member
  | cons first rest ih =>
    rw [listHeight]
    rcases List.mem_cons.mp member with same | later
    · exact same ▸ Nat.le_max_left ..
    · exact Nat.le_trans (ih later) (Nat.le_max_right ..)

theorem listHeight_append (schemas schemas' : List Schema) :
    listHeight (schemas ++ schemas') = max (listHeight schemas) (listHeight schemas') := by
  induction schemas with
  | nil => simp only [List.nil_append, listHeight, Nat.zero_max]
  | cons first rest ih => simp only [List.cons_append, listHeight, ih, Nat.max_assoc]

theorem slotHeight_eq (slot : Option (Slot (List Schema))) : slotHeight slot = listHeight (NodeOf.listed slot) := by
  rcases slot with - | (schemas | value)
  · simp only [slotHeight, NodeOf.listed, listHeight]
  · simp only [slotHeight, NodeOf.listed]
  · simp only [slotHeight, NodeOf.listed, listHeight]

theorem height_le_tableHeight {table : List (String × Schema)} {s : Schema} (member : s ∈ table.map (·.2)) :
    s.height ≤ tableHeight table := by
  induction table with
  | nil => cases member
  | cons first rest ih =>
    rw [tableHeight]
    rcases List.mem_cons.mp member with same | later
    · exact same ▸ Nat.le_max_left ..
    · exact Nat.le_trans (ih later) (Nat.le_max_right ..)

theorem height_le_slotHeight {slot : Option (Slot (List Schema))} {s : Schema} (member : s ∈ NodeOf.listed slot) :
    s.height ≤ slotHeight slot := by
  rcases slot with - | (schemas | value)
  · cases member
  · exact height_le_listHeight member
  · cases member

theorem height_le_propertiesHeight {slot : Option (Slot (List (String × Schema)))} {s : Schema}
    (member : s ∈ NodeOf.declared slot) : s.height ≤ propertiesHeight slot := by
  rcases slot with - | (table | value)
  · cases member
  · exact height_le_tableHeight member
  · cases member

theorem height_le_itemsHeight {items : Option (Items Schema)} {s : Schema} (member : s ∈ NodeOf.elements items) :
    s.height ≤ itemsHeight items := by
  rcases items with - | (schemas | schema)
  · cases member
  · exact height_le_listHeight member
  · rw [List.mem_singleton.mp member, itemsHeight]
    omega

theorem height_le_raisedHeight {levels : Nat} {schema : Option Schema} {s : Schema} (member : s ∈ schema.toList) :
    levels + s.height ≤ raisedHeight levels schema := by
  rw [Option.mem_toList] at member
  subst member
  exact Nat.le_refl _

/-- The keywords of a node go at most `levels` further down, with what a change may add. -/
structure Within (n : Node) (levels : Nat) : Prop where
  flag : flagHeight n.nullable ≤ levels
  properties : propertiesHeight n.properties ≤ levels
  items : itemsHeight n.items ≤ levels
  prefixItems : slotHeight n.prefixItems ≤ levels
  additionalItems : raisedHeight 1 n.additionalItems ≤ levels
  additionalProperties : raisedHeight 0 n.additionalProperties ≤ levels
  allOf : slotHeight n.allOf ≤ levels
  anyOf : slotHeight n.anyOf ≤ levels
  oneOf : slotHeight n.oneOf ≤ levels
  not : raisedHeight 0 n.not ≤ levels
  condition : raisedHeight 3 n.condition ≤ levels
  consequent : raisedHeight 2 n.consequent ≤ levels
  alternative : raisedHeight 2 n.alternative ≤ levels

theorem within_nodeHeight (n : Node) : Within n (nodeHeight n) := by
  cases n
  rw [nodeHeight]
  constructor <;> first | exact Nat.le_add_right .. | refine Nat.le_add_left_of_le ?_
  all_goals simp only [le_max_iff, le_refl, true_or, or_true]

/-- The subschemas of a node fit into what its keywords fit into. -/
theorem Within.height_le {n : Node} {levels : Nat} (fits : Within n levels) {s : Schema}
    (member : s ∈ n.subschemas .auxiliary) : s.height ≤ levels := by
  simp only [NodeOf.subschemas_auxiliary, NodeOf.subschemas_keywords, List.mem_append, or_assoc] at member
  have raised {k : Nat} {schema : Option Schema} (inside : s ∈ schema.toList) (bound : raisedHeight k schema ≤ levels) :
      s.height ≤ levels := by
    have below := @height_le_raisedHeight k _ _ inside
    omega
  rcases member with inside | inside | inside | inside | inside | inside | inside | inside | inside | inside |
    inside | inside
  · exact (height_le_propertiesHeight inside).trans fits.properties
  · exact (height_le_itemsHeight inside).trans fits.items
  · exact raised inside fits.additionalProperties
  · exact (height_le_slotHeight inside).trans fits.allOf
  · exact (height_le_slotHeight inside).trans fits.anyOf
  · exact (height_le_slotHeight inside).trans fits.oneOf
  · exact (height_le_slotHeight inside).trans fits.prefixItems
  · exact raised inside fits.condition
  · exact raised inside fits.consequent
  · exact raised inside fits.alternative
  · exact raised inside fits.not
  · exact raised inside fits.additionalItems

/-- Subschemas are lower than the node they belong to. -/
theorem height_le_nodeHeight {n : Node} {s : Schema} (member : s ∈ n.subschemas .auxiliary) :
    s.height ≤ nodeHeight n := (within_nodeHeight n).height_le member

/-- A step after which every subschema is lower than the node that the step was given. -/
def Lowering (step : Node → Noted Node) : Prop :=
  ∀ n, ∀ s ∈ (step n).value.subschemas .auxiliary, s.height ≤ nodeHeight n

theorem lowering_ofOption {step : Node → Option Node}
    (lower : ∀ n n', step n = some n' → ∀ s ∈ n'.subschemas .auxiliary, s.height ≤ nodeHeight n) :
    Lowering fun n => Noted.ofOption n (step n) := by
  intro n s member
  dsimp only at member
  cases changed : step n with
  | none =>
    rw [changed] at member
    exact height_le_nodeHeight member
  | some n' =>
    rw [changed] at member
    exact lower n n' changed s member

theorem lowering_pure : Lowering pure := fun _ _ member => height_le_nodeHeight member

/-- Induction along a step: what holds of the subschemas that the step leaves holds of the node. -/
theorem Lowering.induction {step : Node → Noted Node} (lowering : Lowering step) {motive : Schema → Prop}
    (bool : ∀ value, motive (.bool value)) (malformed : ∀ value, motive (.malformed value))
    (node : ∀ n, (∀ s ∈ (step n).value.subschemas .auxiliary, motive s) → motive (.node n)) (schema : Schema) :
    motive schema := by
  induction bound : schema.height using Nat.strong_induction_on generalizing schema with
  | _ height ih =>
    cases schema with
    | bool value => exact bool value
    | malformed value => exact malformed value
    | node n =>
      refine node n fun s member => ih s.height ?_ s rfl
      have lower := lowering n s member
      rw [Schema.height] at bound
      omega

section

variable {m : Type → Type} [Monad m]

@[simp] theorem mapWithin_bool (reach : Reach) (step : Node → m Node) (levels : Nat) (value : Bool) :
    mapWithin reach step levels (.bool value) = pure (.bool value) := by cases levels <;> rfl

@[simp] theorem mapWithin_malformed (reach : Reach) (step : Node → m Node) (levels : Nat) (value : Json) :
    mapWithin reach step levels (.malformed value) = pure (.malformed value) := by cases levels <;> rfl

end

variable {reach : Reach} {step : Node → Noted Node}

/-- A walk that may go down as far as the schema is high is not cut short. -/
theorem Lowering.mapWithin_eq (lowering : Lowering step) {levels levels' : Nat} {schema : Schema}
    (enough : schema.height ≤ levels) (enough' : schema.height ≤ levels') :
    mapWithin reach step levels schema = mapWithin reach step levels' schema := by
  induction levels generalizing levels' schema with
  | zero =>
    cases schema with
    | bool value => simp only [mapWithin_bool]
    | malformed value => simp only [mapWithin_malformed]
    | node n => rw [Schema.height] at enough; omega
  | succ levels ih =>
    cases schema with
    | bool value => simp only [mapWithin_bool]
    | malformed value => simp only [mapWithin_malformed]
    | node n =>
      rw [Schema.height] at enough enough'
      obtain ⟨levels', rfl⟩ : ∃ k, levels' = k + 1 := ⟨levels' - 1, by omega⟩
      rw [mapWithin, mapWithin]
      refine Noted.bind_congr ?_
      have children : ∀ s ∈ (step n).value.subschemas reach,
          mapWithin reach step levels s = mapWithin reach step levels' s := by
        intro s member
        have lower := lowering n s (NodeOf.mem_auxiliary_of_mem member)
        exact ih (by omega) (by omega)
      rw [NodeOf.replaceChildren_congr children]

/-- The walk as a recursion: first the node, then the subschemas of what it became. -/
theorem Lowering.mapNodes_node (lowering : Lowering step) (n : Node) :
    mapNodes reach step (.node n) = (do
      let n ← step n
      return .node (← n.replaceChildren reach (mapNodes reach step))) := by
  rw [mapNodes, Schema.height, Nat.add_comm, mapWithin]
  refine Noted.bind_congr ?_
  have children : ∀ s ∈ (step n).value.subschemas reach,
      mapWithin reach step (nodeHeight n) s = mapNodes reach step s := by
    intro s member
    exact lowering.mapWithin_eq (lowering n s (NodeOf.mem_auxiliary_of_mem member)) (Nat.le_refl _)
  rw [NodeOf.replaceChildren_congr children]

theorem Lowering.mapNodes_value (lowering : Lowering step) (n : Node) :
    (mapNodes reach step (.node n)).value =
      .node ((step n).value.mapReach reach fun s => (mapNodes reach step s).value) := by
  simp only [lowering.mapNodes_node, Noted.bind_value, Noted.pure_value, NodeOf.replaceChildren_value]

theorem Lowering.mapNodes_changed (lowering : Lowering step) (n : Node) :
    (mapNodes reach step (.node n)).changed =
      ((step n).changed || ((step n).value.subschemas reach).any fun s => (mapNodes reach step s).changed) := by
  simp only [lowering.mapNodes_node, Noted.bind_changed, Noted.pure_changed, NodeOf.replaceChildren_changed,
    Bool.or_false]

@[simp] theorem mapNodes_bool (value : Bool) : mapNodes reach step (.bool value) = pure (.bool value) :=
  mapWithin_bool ..

@[simp] theorem mapNodes_malformed (value : Json) : mapNodes reach step (.malformed value) = pure (.malformed value) :=
  mapWithin_malformed ..

theorem nodesWithin_eq {levels levels' : Nat} {schema : Schema} (enough : schema.height ≤ levels)
    (enough' : schema.height ≤ levels') : nodesWithin reach levels schema = nodesWithin reach levels' schema := by
  induction levels generalizing levels' schema with
  | zero =>
    cases schema with
    | bool value => cases levels' <;> rfl
    | malformed value => cases levels' <;> rfl
    | node n => rw [Schema.height] at enough; omega
  | succ levels ih =>
    cases schema with
    | bool value => cases levels' <;> rfl
    | malformed value => cases levels' <;> rfl
    | node n =>
      rw [Schema.height] at enough enough'
      obtain ⟨levels', rfl⟩ : ∃ k, levels' = k + 1 := ⟨levels' - 1, by omega⟩
      have below : ∀ child ∈ n.children reach,
          nodesWithin reach levels child.2 = nodesWithin reach levels' child.2 := by
        intro child member
        have lower := height_le_nodeHeight (NodeOf.mem_auxiliary_of_mem (NodeOf.mem_of_mem_children member))
        exact ih (by omega) (by omega)
      rw [nodesWithin, nodesWithin, List.flatMap_def, List.flatMap_def, List.map_congr_left below]

/-- The nodes of a schema: its own, then those of its subschemas. -/
theorem nodes_node (n : Node) :
    (Schema.node n).nodes reach = n :: (n.subschemas reach).flatMap (nodes reach) := by
  have below : ∀ child ∈ n.children reach, nodesWithin reach (nodeHeight n) child.2 = child.2.nodes reach := by
    intro child member
    have lower := height_le_nodeHeight (NodeOf.mem_auxiliary_of_mem (NodeOf.mem_of_mem_children member))
    exact nodesWithin_eq lower (Nat.le_refl _)
  calc (Schema.node n).nodes reach
      = n :: (n.children reach).flatMap (fun child => nodesWithin reach (nodeHeight n) child.2) := by
        rw [nodes, Schema.height, Nat.add_comm, nodesWithin]
    _ = n :: (n.subschemas reach).flatMap (nodes reach) := by
        rw [List.flatMap_def, List.map_congr_left below, NodeOf.subschemas, List.flatMap_map, List.flatMap_def]

@[simp] theorem nodes_bool (value : Bool) : (Schema.bool value).nodes reach = [] := rfl

@[simp] theorem nodes_malformed (value : Json) : (Schema.malformed value).nodes reach = [] := rfl

end Schema

end Schemata
