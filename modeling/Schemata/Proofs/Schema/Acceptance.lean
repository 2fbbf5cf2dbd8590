import Schemata.Proofs.Schema.Descent
import Schemata.Json.Kind

namespace Schemata

/-- What the parts that cannot be read from the schema alone ask of a value. -/
structure Interpretation where
  /-- The target of a reference. -/
  reference : String → Json → Prop
  /-- A keyword without a place of its own, with its value. -/
  keyword : String → Json → Json → Prop
  /-- A keyword whose value has the wrong shape. -/
  misshapen : String → Json → Json → Prop
  /-- A value where a schema should stand. -/
  malformed : Json → Json → Prop
  /-- The pattern matches somewhere in the name of a property. -/
  matchesPattern : String → String → Prop

/-- The value has the type of that name; no value has a type whose name is unknown. -/
def Json.IsOfType (x : Json) (name : String) : Prop := ∃ tag, TypeTag.ofName? name = some tag ∧ x.hasType tag

namespace NodeOf

/-- The keyword and its value, when the value has the wrong shape. -/
def misfit {α : Type} (key : String) : Option (Slot α) → List (String × Json)
  | some (.malformed value) => [(key, value)]
  | _ => []

@[simp] theorem misfit_valid {α : Type} (key : String) (value : α) : misfit key (some (.valid value)) = [] := rfl

/-- The keywords whose values have the wrong shape. -/
def misfits {S : Type} (n : NodeOf S) : List (String × Json) :=
  misfit "type" n.types ++ misfit "enum" n.enum ++ misfit "properties" n.properties ++ misfit "required" n.required
    ++ misfit "prefixItems" n.prefixItems ++ misfit "allOf" n.allOf ++ misfit "anyOf" n.anyOf ++ misfit "oneOf" n.oneOf
    ++ misfit "$ref" n.reference ++ misfit "nullable" n.nullable

/-- Only the shapes of the values matter, not the subschemas. -/
theorem misfits_map {S T : Type} (f : S → T) (n : NodeOf S) : (n.map f).misfits = n.misfits := by
  have lists (key : String) (slot : Option (Slot (List S))) :
      misfit key (slot.map (Slot.map (List.map f))) = misfit key slot := by
    rcases slot with - | (schemas | value) <;> rfl
  have tables (slot : Option (Slot (List (String × S)))) :
      misfit "properties" (slot.map (Slot.map (Table.mapValues f))) = misfit "properties" slot := by
    rcases slot with - | (table | value) <;> rfl
  simp only [misfits, map, mapBoth, lists, tables]

/-- The property is declared by name, or by a pattern that matches its name. -/
def Declares {S : Type} (I : Interpretation) (n : NodeOf S) (name : String) : Prop :=
  (∃ table, n.properties = some (.valid table) ∧ name ∈ Table.keys table) ∨
  ∃ patterns, n.extra.lookup "patternProperties" = some (.object patterns) ∧
    ∃ pattern ∈ Table.keys patterns, I.matchesPattern pattern name

/-- What the keywords of a node ask of a value, where every subschema is given as the set of values that it
accepts. Of the keywords that the library reads, `prefixItems` and `nullable` mean nothing in draft 7. -/
structure Meets (I : Interpretation) (n : NodeOf (Json → Prop)) (x : Json) : Prop where
  types : ∀ names, n.types = some (.valid names) → ∃ name ∈ names.names, x.IsOfType name
  const : ∀ value, n.const = some value → value.equal x
  enum : ∀ values, n.enum = some (.valid values) → ∃ value ∈ values, value.equal x
  properties : ∀ table, n.properties = some (.valid table) → ∀ fields, x = .object fields →
    ∀ entry ∈ table, ∀ value, fields.lookup entry.1 = some value → entry.2 value
  required : ∀ names, n.required = some (.valid names) → ∀ fields, x = .object fields →
    ∀ name ∈ names, Table.has fields name
  additionalProperties : ∀ other, n.additionalProperties = some other → ∀ fields, x = .object fields →
    ∀ field ∈ fields, ¬ n.Declares I field.1 → other field.2
  single : ∀ every, n.items = some (.single every) → ∀ values, x = .array values → ∀ value ∈ values, every value
  positional : ∀ schemas, n.items = some (.positional schemas) → ∀ values, x = .array values →
    ∀ (i : Nat) (schema : Json → Prop) (value : Json), schemas[i]? = some schema → values[i]? = some value → schema value
  additionalItems : ∀ schemas later, n.items = some (.positional schemas) → n.additionalItems = some later →
    ∀ values, x = .array values → ∀ value ∈ values.drop schemas.length, later value
  allOf : ∀ members, n.allOf = some (.valid members) → ∀ member ∈ members, member x
  anyOf : ∀ members, n.anyOf = some (.valid members) → ∃ member ∈ members, member x
  oneOf : ∀ members, n.oneOf = some (.valid members) → ∃ before member after,
    members = before ++ member :: after ∧ member x ∧ ∀ other ∈ before ++ after, ¬ other x
  not : ∀ forbidden, n.not = some forbidden → ¬ forbidden x
  consequent : ∀ condition branch, n.condition = some condition → n.consequent = some branch →
    condition x → branch x
  alternative : ∀ condition branch, n.condition = some condition → n.alternative = some branch →
    ¬ condition x → branch x
  misshapen : ∀ misfit ∈ n.misfits, I.misshapen misfit.1 misfit.2 x
  extra : ∀ field ∈ n.extra, I.keyword field.1 field.2 x

/-- A node without keywords asks for nothing. -/
theorem meets_empty (I : Interpretation) (x : Json) : (empty : NodeOf (Json → Prop)).Meets I x := by
  constructor <;> nofun

/-- A reference stands for its target, and the keywords beside it count for nothing. -/
def Accepts (I : Interpretation) (n : NodeOf (Json → Prop)) (x : Json) : Prop :=
  match n.reference with
  | some (.valid reference) => I.reference reference x
  | _ => n.Meets I x

theorem accepts_iff_meets {I : Interpretation} {n : NodeOf (Json → Prop)} {x : Json}
    (own : ∀ reference, n.reference ≠ some (.valid reference)) : n.Accepts I x ↔ n.Meets I x := by
  unfold Accepts
  split
  · rename_i reference given
    exact absurd given (own reference)
  · exact Iff.rfl

/-- Nodes with one reference accept the same values when their keywords ask for the same. -/
theorem accepts_congr {I : Interpretation} {n n' : NodeOf (Json → Prop)} {x : Json}
    (reference : n.reference = n'.reference) (keywords : n.Meets I x ↔ n'.Meets I x) :
    n.Accepts I x ↔ n'.Accepts I x := by
  unfold Accepts
  rw [reference]
  split
  · exact Iff.rfl
  · exact keywords

theorem accepts_members {I : Interpretation} {x : Json} (members : List (Json → Prop)) :
    Accepts I { allOf := some (.valid members) } x ↔ ∀ member ∈ members, member x := by
  constructor
  · intro (met : Meets _ _ _)
    exact met.allOf members rfl
  · intro every
    exact show Meets _ _ _ from
      { meets_empty I x with
        allOf := by
          rintro _ ⟨⟩
          exact every }

end NodeOf

namespace Schema

section

variable {α : Type} (bool : Bool → α) (malformed : Json → α) (node : NodeOf α → α)

mutual
/-- The value of a schema, from the values of its subschemas. -/
def fold : Schema → α
  | .bool value => bool value
  | .malformed value => malformed value
  | .node n => node (foldNode n)

/-- The node with the values of its subschemas. -/
def foldNode : Node → NodeOf α
  | { types, const, enum, properties, required, items, prefixItems, additionalItems, additionalProperties,
      allOf, anyOf, oneOf, not, condition, consequent, alternative, reference, nullable, extra } =>
    { types, const, enum, required, reference, nullable, extra
      properties := foldProperties properties
      items := foldItems items
      prefixItems := foldSlot prefixItems
      additionalItems := foldOption additionalItems
      additionalProperties := foldOption additionalProperties
      allOf := foldSlot allOf, anyOf := foldSlot anyOf, oneOf := foldSlot oneOf
      not := foldOption not
      condition := foldOption condition
      consequent := foldOption consequent
      alternative := foldOption alternative }

/-- The values of the properties. -/
def foldProperties : Option (Slot (List (String × Schema))) → Option (Slot (List (String × α)))
  | none => none
  | some (.malformed value) => some (.malformed value)
  | some (.valid table) => some (.valid (foldTable table))

/-- The values under `items`. -/
def foldItems : Option (Items Schema) → Option (Items α)
  | none => none
  | some (.positional schemas) => some (.positional (foldList schemas))
  | some (.single schema) => some (.single (fold schema))

/-- The values of a list under a keyword. -/
def foldSlot : Option (Slot (List Schema)) → Option (Slot (List α))
  | none => none
  | some (.malformed value) => some (.malformed value)
  | some (.valid schemas) => some (.valid (foldList schemas))

/-- The value of a schema that may be absent. -/
def foldOption : Option Schema → Option α
  | none => none
  | some schema => some (fold schema)

/-- The values by position. -/
def foldList : List Schema → List α
  | [] => []
  | schema :: rest => fold schema :: foldList rest

/-- The values by name. -/
def foldTable : List (String × Schema) → List (String × α)
  | [] => []
  | (name, schema) :: rest => (name, fold schema) :: foldTable rest
end

theorem foldList_eq (schemas : List Schema) :
    foldList bool malformed node schemas = schemas.map (fold bool malformed node) := by
  induction schemas with
  | nil => rw [foldList, List.map_nil]
  | cons schema rest ih => rw [foldList, List.map_cons, ih]

theorem foldTable_eq (table : List (String × Schema)) :
    foldTable bool malformed node table = Table.mapValues (fold bool malformed node) table := by
  induction table with
  | nil => rw [foldTable]; rfl
  | cons entry rest ih => rw [foldTable, ih]; rfl

theorem foldSlot_eq (slot : Option (Slot (List Schema))) :
    foldSlot bool malformed node slot = slot.map (Slot.map (List.map (fold bool malformed node))) := by
  rcases slot with - | (schemas | value) <;> simp [foldSlot, foldList_eq, Slot.map]

theorem foldProperties_eq (slot : Option (Slot (List (String × Schema)))) :
    foldProperties bool malformed node slot = slot.map (Slot.map (Table.mapValues (fold bool malformed node))) := by
  rcases slot with - | (table | value) <;> simp [foldProperties, foldTable_eq, Slot.map]

theorem foldItems_eq (items : Option (Items Schema)) :
    foldItems bool malformed node items = items.map (Items.map (fold bool malformed node)) := by
  rcases items with - | (schemas | schema) <;> simp [foldItems, foldList_eq, Items.map]

theorem foldOption_eq (schema : Option Schema) :
    foldOption bool malformed node schema = schema.map (fold bool malformed node) := by
  cases schema <;> simp [foldOption]

/-- The fold as a recursion on nodes. -/
theorem fold_node (n : Node) : fold bool malformed node (.node n) = node (n.map (fold bool malformed node)) := by
  cases n
  simp only [fold, foldNode, NodeOf.map, NodeOf.mapBoth, foldSlot_eq, foldProperties_eq, foldItems_eq, foldOption_eq]

end

/-- The schema accepts the value. -/
def Accepts (I : Interpretation) : Schema → Json → Prop :=
  fold (fun value _ => value) I.malformed (NodeOf.Accepts I)

variable {I : Interpretation} {x : Json}

theorem accepts_node (n : Node) : (Schema.node n).Accepts I x ↔ (n.map (Accepts I)).Accepts I x := by
  rw [Accepts, fold_node]

/-- A walk of the wider reach turns one reading of schemas into another, when its step does so for nodes: the new
reading of the node that the step leaves is the old reading of the node that it came to. -/
theorem Lowering.fold_mapNodes {α : Type} {bool : Bool → α} {malformed : Json → α} {before after : NodeOf α → α}
    {step : Node → Noted Node} (lowering : Lowering step)
    (turns : ∀ n : Node, after ((step n).value.map (fold bool malformed before)) =
      before (n.map (fold bool malformed before))) (schema : Schema) :
    fold bool malformed after (mapNodes .auxiliary step schema).value = fold bool malformed before schema := by
  induction schema using lowering.induction with
  | bool value => simp only [mapNodes_bool, Noted.pure_value, fold]
  | malformed value => simp only [mapNodes_malformed, Noted.pure_value, fold]
  | node n ih =>
    rw [NodeOf.subschemas_auxiliary, List.forall_mem_append] at ih
    have images : ((step n).value.mapReach .auxiliary fun s => (mapNodes .auxiliary step s).value).map
        (fold bool malformed after) = (step n).value.map (fold bool malformed before) :=
      (NodeOf.mapBoth_mapBoth _ _ _ _ _).trans (NodeOf.mapBoth_congr ih.1 ih.2)
    rw [lowering.mapNodes_value, fold_node, images, turns, fold_node]

/-- A step that keeps what a node accepts makes a walk that keeps what the whole schema accepts. The subschemas that
the walk goes on with need not be those of the node it came to. -/
theorem Lowering.accepts_mapNodes {reach : Reach} {step : Node → Noted Node} (lowering : Lowering step)
    (keeps : ∀ n x, (Schema.node (step n).value).Accepts I x ↔ (Schema.node n).Accepts I x) (schema : Schema)
    (x : Json) : (mapNodes reach step schema).value.Accepts I x ↔ schema.Accepts I x := by
  induction schema using lowering.induction generalizing x with
  | bool value => simp only [mapNodes_bool, Noted.pure_value]
  | malformed value => simp only [mapNodes_malformed, Noted.pure_value]
  | node n ih =>
    have images : ((step n).value.mapReach reach fun s => (mapNodes reach step s).value).map (Accepts I) =
        (step n).value.map (Accepts I) :=
      NodeOf.map_mapReach fun s member => funext fun x => propext (ih s member x)
    rw [lowering.mapNodes_value, accepts_node, images, ← accepts_node]
    exact keeps n x

end Schema

end Schemata
