import Mathlib.Data.List.Basic
import Schemata.Schema.Children

namespace Schemata

/-- The slot with its value replaced by the image. -/
def Slot.map {α β : Type} (f : α → β) : Slot α → Slot β
  | .valid value => .valid (f value)
  | .malformed value => .malformed value

/-- The value of `items` with every schema replaced by its image. -/
def Items.map {S T : Type} (f : S → T) : Items S → Items T
  | .positional schemas => .positional (schemas.map f)
  | .single schema => .single (f schema)

section

variable {α β γ : Type} (g : β → γ) (f : α → β)

theorem Slot.map_comp_map : Slot.map g ∘ Slot.map f = Slot.map (g ∘ f) := by
  funext slot
  cases slot <;> rfl

theorem Slot.map_id : Slot.map (id : α → α) = id := by
  funext slot
  cases slot <;> rfl

theorem Items.map_comp_map : Items.map g ∘ Items.map f = Items.map (g ∘ f) := by
  funext items
  cases items <;> simp [Items.map]

theorem Items.map_id : Items.map (id : α → α) = id := by
  funext items
  cases items <;> simp [Items.map]

theorem Table.mapValues_comp_mapValues : Table.mapValues g ∘ Table.mapValues f = Table.mapValues (g ∘ f) := by
  funext table
  simp [Table.mapValues]

theorem Table.mapValues_id : Table.mapValues (id : α → α) = id := by
  funext table
  simp [Table.mapValues]

end

namespace NodeOf

variable {S T U : Type}

/-- What a keyword that lists schemas holds; nothing when it is absent or has the wrong shape. -/
def listed : Option (Slot (List S)) → List S
  | some (.valid schemas) => schemas
  | _ => []

/-- The schemas of the declared properties. -/
def declared : Option (Slot (List (String × S))) → List S
  | some (.valid table) => table.map (·.2)
  | _ => []

/-- The schemas under `items`. -/
def elements : Option (Items S) → List S
  | some (.positional schemas) => schemas
  | some (.single schema) => [schema]
  | none => []

/-- The subschemas within reach, in the order of a walk. -/
def subschemas (reach : Reach) (n : NodeOf S) : List S := (n.children reach).map (·.2)

/-- The node with `f` applied to the subschemas under the keywords of both reaches, and `g` to those under
`not` and `additionalItems`. -/
def mapBoth (f g : S → T) (n : NodeOf S) : NodeOf T :=
  { types := n.types, const := n.const, enum := n.enum
    properties := n.properties.map (Slot.map (Table.mapValues f))
    required := n.required
    items := n.items.map (Items.map f)
    prefixItems := n.prefixItems.map (Slot.map (List.map f))
    additionalItems := n.additionalItems.map g
    additionalProperties := n.additionalProperties.map f
    allOf := n.allOf.map (Slot.map (List.map f))
    anyOf := n.anyOf.map (Slot.map (List.map f))
    oneOf := n.oneOf.map (Slot.map (List.map f))
    not := n.not.map g
    condition := n.condition.map f, consequent := n.consequent.map f, alternative := n.alternative.map f
    reference := n.reference, nullable := n.nullable, extra := n.extra }

/-- The node with every subschema replaced by its image. -/
def map (f : S → T) (n : NodeOf S) : NodeOf T := n.mapBoth f f

/-- The node with every subschema within reach replaced by its image. -/
def mapReach (reach : Reach) (f : S → S) (n : NodeOf S) : NodeOf S :=
  match reach with
  | .keywords => n.mapBoth f id
  | .auxiliary => n.mapBoth f f

theorem mem_of_mem_children {reach : Reach} {n : NodeOf S} {child : Pointer × S} (member : child ∈ n.children reach) :
    child.2 ∈ n.subschemas reach := by
  rw [subschemas]
  exact List.mem_map_of_mem member

theorem map_indexed (key : String) (start : Nat) (schemas : List S) :
    (Pointer.indexed key start schemas).map (·.2) = schemas := by
  induction schemas generalizing start with
  | nil => rfl
  | cons schema rest ih => simp only [Pointer.indexed, List.map_cons, ih]

theorem indexed_map (f : S → T) (key : String) (start : Nat) (schemas : List S) :
    Pointer.indexed key start (schemas.map f) =
      (Pointer.indexed key start schemas).map fun child => (child.1, f child.2) := by
  induction schemas generalizing start with
  | nil => rfl
  | cons schema rest ih => simp only [Pointer.indexed, List.map_cons, ih]

theorem map_listChildren (key : String) (slot : Option (Slot (List S))) :
    (listChildren key slot).map (·.2) = listed slot := by
  rcases slot with - | (schemas | value)
  · rfl
  · exact map_indexed key 0 schemas
  · rfl

theorem listChildren_map (f : S → T) (key : String) (slot : Option (Slot (List S))) :
    listChildren key (slot.map (Slot.map (List.map f))) =
      (listChildren key slot).map fun child => (child.1, f child.2) := by
  rcases slot with - | (schemas | value)
  · rfl
  · exact indexed_map f key 0 schemas
  · rfl

theorem map_tableChildren (key : String) (slot : Option (Slot (List (String × S)))) :
    (tableChildren key slot).map (·.2) = declared slot := by
  rcases slot with - | (table | value)
  · rfl
  · simp [tableChildren, declared]
  · rfl

theorem tableChildren_map (f : S → T) (key : String) (slot : Option (Slot (List (String × S)))) :
    tableChildren key (slot.map (Slot.map (Table.mapValues f))) =
      (tableChildren key slot).map fun child => (child.1, f child.2) := by
  rcases slot with - | (table | value)
  · rfl
  · simp [tableChildren, Slot.map, Table.mapValues]
  · rfl

theorem map_itemsChildren (items : Option (Items S)) : (itemsChildren items).map (·.2) = elements items := by
  rcases items with - | (schemas | schema)
  · rfl
  · exact map_indexed "items" 0 schemas
  · rfl

theorem itemsChildren_map (f : S → T) (items : Option (Items S)) :
    itemsChildren (items.map (Items.map f)) = (itemsChildren items).map fun child => (child.1, f child.2) := by
  rcases items with - | (schemas | schema)
  · rfl
  · exact indexed_map f "items" 0 schemas
  · rfl

theorem map_schemaChildren (key : String) (schema : Option S) :
    (schemaChildren key schema).map (·.2) = schema.toList := by
  cases schema <;> rfl

theorem schemaChildren_map (f : S → T) (key : String) (schema : Option S) :
    schemaChildren key (schema.map f) = (schemaChildren key schema).map fun child => (child.1, f child.2) := by
  cases schema <;> rfl

/-- The subschemas under the keywords of both reaches, keyword by keyword. -/
theorem subschemas_keywords (n : NodeOf S) :
    n.subschemas .keywords = declared n.properties ++ elements n.items ++ n.additionalProperties.toList
      ++ listed n.allOf ++ listed n.anyOf ++ listed n.oneOf ++ listed n.prefixItems
      ++ n.condition.toList ++ n.consequent.toList ++ n.alternative.toList := by
  simp only [subschemas, children, List.map_append, map_tableChildren, map_itemsChildren, map_schemaChildren,
    map_listChildren, List.append_nil]

/-- The wider reach only adds what stands under `not` and `additionalItems`. -/
theorem subschemas_auxiliary (n : NodeOf S) :
    n.subschemas .auxiliary = n.subschemas .keywords ++ (n.not.toList ++ n.additionalItems.toList) := by
  simp only [subschemas, children, List.map_append, map_schemaChildren, List.append_nil]

theorem mem_auxiliary_of_mem {reach : Reach} {n : NodeOf S} {s : S} (member : s ∈ n.subschemas reach) :
    s ∈ n.subschemas .auxiliary := by
  cases reach with
  | keywords => exact subschemas_auxiliary n ▸ List.mem_append_left _ member
  | auxiliary => exact member

/-- Every child keeps its place, and is replaced by its image. -/
theorem children_mapReach (reach : Reach) (f : S → S) (n : NodeOf S) :
    (n.mapReach reach f).children reach = (n.children reach).map fun child => (child.1, f child.2) := by
  cases reach <;>
    simp only [mapReach, mapBoth, children, List.map_append, tableChildren_map, itemsChildren_map,
      schemaChildren_map, listChildren_map, List.map_nil]

theorem subschemas_mapReach (reach : Reach) (f : S → S) (n : NodeOf S) :
    (n.mapReach reach f).subschemas reach = (n.subschemas reach).map f := by
  simp only [subschemas, children_mapReach, List.map_map, Function.comp_def]

theorem subschemas_mapBoth (f g : S → T) (n : NodeOf S) :
    (n.mapBoth f g).subschemas .keywords = (n.subschemas .keywords).map f ∧
      (n.mapBoth f g).not.toList ++ (n.mapBoth f g).additionalItems.toList =
        (n.not.toList ++ n.additionalItems.toList).map g := by
  constructor
  · simp only [subschemas, mapBoth, children, List.map_append, tableChildren_map, itemsChildren_map,
      schemaChildren_map, listChildren_map, List.map_map, Function.comp_def, List.map_nil]
  · simp only [mapBoth, Option.toList_map, List.map_append]

/-- Under either reach, what stands in a changed node is the image of a subschema or the subschema itself. -/
theorem mem_subschemas_mapReach {reach reach' : Reach} {f : S → S} {n : NodeOf S} {t : S}
    (member : t ∈ (n.mapReach reach f).subschemas reach') : ∃ s ∈ n.subschemas reach', t = f s ∨ t = s := by
  cases reach with
  | auxiliary =>
    have images : (n.mapReach .auxiliary f).subschemas reach' = (n.subschemas reach').map f := by
      obtain ⟨near, far⟩ := subschemas_mapBoth f f n
      cases reach' with
      | keywords => exact near
      | auxiliary => exact subschemas_mapReach .auxiliary f n
    rw [images] at member
    obtain ⟨s, inside, rfl⟩ := List.mem_map.mp member
    exact ⟨s, inside, Or.inl rfl⟩
  | keywords =>
    obtain ⟨near, far⟩ := subschemas_mapBoth f id n
    change t ∈ (n.mapBoth f id).subschemas reach' at member
    cases reach' with
    | keywords =>
      rw [near] at member
      obtain ⟨s, inside, rfl⟩ := List.mem_map.mp member
      exact ⟨s, inside, Or.inl rfl⟩
    | auxiliary =>
      rw [subschemas_auxiliary, near, far, List.map_id] at member
      rw [subschemas_auxiliary]
      rcases List.mem_append.mp member with inner | outer
      · obtain ⟨s, inside, rfl⟩ := List.mem_map.mp inner
        exact ⟨s, List.mem_append_left _ inside, Or.inl rfl⟩
      · exact ⟨t, List.mem_append_right _ outer, Or.inr rfl⟩

theorem mapTable_congr {f g : S → T} {slot : Option (Slot (List (String × S)))}
    (same : ∀ s ∈ declared slot, f s = g s) :
    slot.map (Slot.map (Table.mapValues f)) = slot.map (Slot.map (Table.mapValues g)) := by
  rcases slot with - | (table | value)
  · rfl
  · have entries : Table.mapValues f table = Table.mapValues g table :=
      List.map_congr_left fun entry member => congrArg (entry.1, ·) (same entry.2 (List.mem_map_of_mem member))
    simp only [Option.map_some, Slot.map, entries]
  · rfl

theorem mapListed_congr {f g : S → T} {slot : Option (Slot (List S))} (same : ∀ s ∈ listed slot, f s = g s) :
    slot.map (Slot.map (List.map f)) = slot.map (Slot.map (List.map g)) := by
  rcases slot with - | (schemas | value)
  · rfl
  · have images : schemas.map f = schemas.map g := List.map_congr_left same
    simp only [Option.map_some, Slot.map, images]
  · rfl

theorem mapItems_congr {f g : S → T} {items : Option (Items S)} (same : ∀ s ∈ elements items, f s = g s) :
    items.map (Items.map f) = items.map (Items.map g) := by
  rcases items with - | (schemas | schema)
  · rfl
  · have images : schemas.map f = schemas.map g := List.map_congr_left same
    simp only [Option.map_some, Items.map, images]
  · simp only [Option.map_some, Items.map, same schema (List.mem_singleton_self schema)]

theorem mapOption_congr {f g : S → T} {schema : Option S} (same : ∀ s ∈ schema.toList, f s = g s) :
    schema.map f = schema.map g := by
  cases schema with
  | none => rfl
  | some schema => simp only [Option.map_some, same schema (List.mem_singleton_self schema)]

/-- The image of a node depends on the images of its subschemas alone. -/
theorem mapBoth_congr {f f' g g' : S → T} {n : NodeOf S} (near : ∀ s ∈ n.subschemas .keywords, f s = f' s)
    (far : ∀ s ∈ n.not.toList ++ n.additionalItems.toList, g s = g' s) : n.mapBoth f g = n.mapBoth f' g' := by
  simp only [subschemas_keywords, List.forall_mem_append] at near far
  obtain ⟨⟨⟨⟨⟨⟨⟨⟨⟨properties, items⟩, additionalProperties⟩, allOf⟩, anyOf⟩, oneOf⟩, prefixItems⟩, condition⟩,
    consequent⟩, alternative⟩ := near
  obtain ⟨not, additionalItems⟩ := far
  simp only [mapBoth, mapTable_congr properties, mapItems_congr items, mapOption_congr additionalProperties,
    mapListed_congr allOf, mapListed_congr anyOf, mapListed_congr oneOf, mapListed_congr prefixItems,
    mapOption_congr condition, mapOption_congr consequent, mapOption_congr alternative, mapOption_congr not,
    mapOption_congr additionalItems]

theorem mapBoth_mapBoth (f g : S → T) (f' g' : T → U) (n : NodeOf S) :
    (n.mapBoth f g).mapBoth f' g' = n.mapBoth (f' ∘ f) (g' ∘ g) := by
  simp only [mapBoth, Option.map_map, Slot.map_comp_map, List.map_comp_map, Table.mapValues_comp_mapValues,
    Items.map_comp_map]

theorem mapBoth_id (n : NodeOf S) : n.mapBoth id id = n := by
  simp only [mapBoth, List.map_id_fun, Table.mapValues_id, Slot.map_id, Items.map_id, Option.map_id, id_eq]

/-- Images of subschemas within reach that look the same to `g` leave the node the same to `g`. -/
theorem map_mapReach {reach : Reach} {f : S → S} {g : S → T} {n : NodeOf S}
    (same : ∀ s ∈ n.subschemas .auxiliary, g (f s) = g s) : (n.mapReach reach f).map g = n.map g := by
  rw [subschemas_auxiliary, List.forall_mem_append] at same
  cases reach with
  | keywords => exact (mapBoth_mapBoth f id g g n).trans (mapBoth_congr same.1 fun _ _ => rfl)
  | auxiliary => exact (mapBoth_mapBoth f f g g n).trans (mapBoth_congr same.1 same.2)

theorem mapReach_eq_self {reach : Reach} {f : S → S} {n : NodeOf S} (same : ∀ s ∈ n.subschemas reach, f s = s) :
    n.mapReach reach f = n := by
  cases reach with
  | keywords => exact (mapBoth_congr same fun _ _ => rfl).trans (mapBoth_id n)
  | auxiliary =>
    rw [subschemas_auxiliary, List.forall_mem_append] at same
    exact (mapBoth_congr same.1 same.2).trans (mapBoth_id n)

end NodeOf

end Schemata
