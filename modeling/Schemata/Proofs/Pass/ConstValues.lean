import Schemata.Proofs.Pass.Const
import Schemata.Proofs.Schema.Place
import Schemata.Proofs.Schema.Visit

namespace Schemata

namespace Json

/-- The entries under `properties`, in order. -/
def declaredUnder : Option Json → List Json
  | some (.object fields) => fields.map (·.2)
  | _ => []

/-- The elements under `items`, or the one schema that is there. -/
def elementsUnder : Option Json → List Json
  | some (.array items) => items
  | some value => [value]
  | none => []

/-- The elements under a keyword for lists of schemas. -/
def listedUnder : Option Json → List Json
  | some (.array items) => items
  | _ => []

/-- What an object holds in the places of subschemas, keyword by keyword; keywords of the wrong shape hold nothing. -/
def subschemasOf (fields : Table Json) : List Json :=
  declaredUnder (fields.lookup "properties") ++ elementsUnder (fields.lookup "items")
    ++ (fields.lookup "additionalProperties").toList
    ++ ["allOf", "anyOf", "oneOf", "prefixItems"].flatMap (fun key => listedUnder (fields.lookup key))
    ++ ["if", "then", "else"].flatMap (fun key => (fields.lookup key).toList)

section

variable {fields : Table Json} {key : String} {value : Json}

theorem size_le_of_mem_elementsUnder {whole : Json} (member : value ∈ elementsUnder (some whole)) :
    value.size ≤ whole.size := by
  cases whole with
  | array items => exact (size_lt_of_item member).le
  | _ => exact List.mem_singleton.mp member ▸ Nat.le_refl _

theorem size_le_of_mem_listedUnder {whole : Json} (member : value ∈ listedUnder (some whole)) :
    value.size ≤ whole.size := by
  cases whole with
  | array items => exact (size_lt_of_item member).le
  | _ => cases member

theorem size_le_of_mem_declaredUnder {whole : Json} (member : value ∈ declaredUnder (some whole)) :
    value.size ≤ whole.size := by
  cases whole with
  | object fields =>
    obtain ⟨⟨name, inner⟩, inside, rfl⟩ := List.mem_map.mp member
    exact (size_lt_of_entry inside).le
  | _ => cases member

/-- What stands in the place of a subschema is smaller than the object around it. -/
theorem size_lt_of_mem_subschemasOf (member : value ∈ subschemasOf fields) : value.size < (Json.object fields).size := by
  have below {under : Option Json → List Json} (none : under none = [])
      (within : ∀ whole, ∀ value ∈ under (some whole), value.size ≤ whole.size) (key : String)
      (inside : value ∈ under (fields.lookup key)) : value.size < (Json.object fields).size := by
    cases found : fields.lookup key with
    | none =>
      rw [found, none] at inside
      cases inside
    | some whole =>
      rw [found] at inside
      exact (within whole value inside).trans_lt (size_lt_of_entry (Table.mem_of_lookup found))
  have single := @below Option.toList rfl fun whole value inside => List.mem_singleton.mp inside ▸ Nat.le_refl _
  simp only [subschemasOf, List.mem_append, List.mem_flatMap, or_assoc] at member
  rcases member with inside | inside | inside | ⟨key, -, inside⟩ | ⟨key, -, inside⟩
  · exact below rfl (fun _ _ => size_le_of_mem_declaredUnder) _ inside
  · exact below rfl (fun _ _ => size_le_of_mem_elementsUnder) _ inside
  · exact single _ inside
  · exact below rfl (fun _ _ => size_le_of_mem_listedUnder) _ inside
  · exact single _ inside

end

/-- The values of `const` in a document, read as a schema: that of an object itself, null included, and then those of what
stands in the places of its subschemas. -/
def constants : Json → List Json
  | .object fields => (fields.lookup "const").toList ++ (subschemasOf fields).attach.flatMap fun value => value.1.constants
  | _ => []
termination_by value => value.size
decreasing_by exact size_lt_of_mem_subschemasOf value.2

theorem constants_object (fields : Table Json) : (Json.object fields).constants =
    (fields.lookup "const").toList ++ (subschemasOf fields).flatMap constants := by
  rw [constants, List.flatMap_subtype (g := constants) fun _ _ => rfl, List.unattach_attach]

end Json

namespace Schema

variable {fields : Table Json}

/-- The subschemas of a node that was read are read from what stands in their places. -/
theorem subschemas_nodeOfFields (fields : Table Json) :
    (nodeOfFields fields).subschemas .keywords = (Json.subschemasOf fields).map ofJson := by
  have declared (found : Option Json) :
      NodeOf.declared (found.map tableOfJson) = (Json.declaredUnder found).map ofJson := by
    rcases found with - | value
    · rfl
    · cases value with
      | object fields =>
        simp [tableOfJson, NodeOf.declared, Json.declaredUnder, tableOfFields_eq, Table.mapValues]
      | _ => rfl
  have elements (found : Option Json) :
      NodeOf.elements (found.map elementsOfJson) = (Json.elementsUnder found).map ofJson := by
    rcases found with - | value
    · rfl
    · cases value with
      | array items => exact listOfItems_eq items
      | _ => rfl
  have listed (found : Option Json) :
      NodeOf.listed (found.map slotOfJson) = (Json.listedUnder found).map ofJson := by
    rcases found with - | value
    · rfl
    · cases value with
      | array items => exact listOfItems_eq items
      | _ => rfl
  have single (found : Option Json) : (found.map ofJson).toList = found.toList.map ofJson := by cases found <;> rfl
  rw [nodeOfFields_eq, NodeOf.subschemas_keywords]
  simp only [declared, elements, listed, single, Json.subschemasOf, List.flatMap_cons, List.flatMap_nil,
    List.map_append, List.append_assoc, List.append_nil]

theorem constValues_node (n : Node) :
    (Schema.node n).constValues = n.const.toList ++ (n.subschemas .keywords).flatMap constValues := by
  rw [constValues, nodes_node, List.filterMap_cons, List.filterMap_flatMap]
  cases n.const <;> rfl

/-- The search for all constants finds those of the document. -/
theorem constValues_ofJson (value : Json) : (ofJson value).constValues = value.constants := by
  induction bound : value.size using Nat.strong_induction_on generalizing value with
  | _ size ih =>
    subst bound
    cases value with
    | object fields =>
      have below : ∀ inner ∈ Json.subschemasOf fields, (ofJson inner).constValues = inner.constants :=
        fun inner member => ih inner.size (Json.size_lt_of_mem_subschemasOf member) inner rfl
      have const : (nodeOfFields fields).const = fields.lookup "const" := by rw [nodeOfFields_eq]
      rw [ofJson, constValues_node, const, subschemas_nodeOfFields, Json.constants_object, List.flatMap_map,
        List.flatMap_def, List.map_congr_left below, List.flatMap_def]
    | _ =>
      rw [Json.constants]
      · rfl
      · intro fields impossible
        cases impossible

/-- Completing a node touches neither its constant nor its subschemas. -/
theorem completeConst_kept (n : Node) : n.completeConst.found = n.const.toList ∧
    n.completeConst.value.const = n.const ∧
    n.completeConst.value.subschemas .keywords = n.subschemas .keywords := by
  cases present : n.const with
  | none =>
    rw [NodeOf.completeConst_of_none present]
    exact ⟨rfl, present, rfl⟩
  | some value =>
    have kept : n.completeConst.found = [value] ∧ n.completeConst.value.const = some value := by
      simp only [NodeOf.completeConst, present, and_self]
    refine ⟨kept.1, kept.2, ?_⟩
    rw [NodeOf.completeConst_value present]
    rfl

/-- The const pass collects what the search finds, and the search finds it again in the result. -/
theorem constValues_normalizeConst (schema : Schema) :
    schema.normalizeConst.found = schema.constValues ∧
      schema.normalizeConst.value.constValues = schema.constValues := by
  induction schema using lowering_completeConst.induction with
  | bool value => exact ⟨rfl, rfl⟩
  | malformed value => exact ⟨rfl, rfl⟩
  | node n ih =>
    obtain ⟨found, const, same⟩ := completeConst_kept n
    have below : ∀ s ∈ n.subschemas .keywords, s.normalizeConst.found = s.constValues ∧
        s.normalizeConst.value.constValues = s.constValues := by
      rw [← same]
      exact fun s member => ih s (NodeOf.mem_auxiliary_of_mem member)
    have founds : (n.subschemas .keywords).flatMap (fun s => s.normalizeConst.found) =
        (n.subschemas .keywords).flatMap constValues := by
      rw [List.flatMap_def, List.flatMap_def, List.map_congr_left fun s member => (below s member).1]
    have values : (n.subschemas .keywords).flatMap (fun s => s.normalizeConst.value.constValues) =
        (n.subschemas .keywords).flatMap constValues := by
      rw [List.flatMap_def, List.flatMap_def, List.map_congr_left fun s member => (below s member).2]
    constructor
    · rw [normalizeConst, lowering_completeConst.mapNodes_found, found, same, constValues_node]
      exact congrArg (n.const.toList ++ ·) founds
    · have unmoved (f : Schema → Schema) : (n.completeConst.value.mapReach .keywords f).const = n.const := const
      rw [normalizeConst, lowering_completeConst.mapNodes_value, constValues_node, unmoved, NodeOf.subschemas_mapReach,
        same, constValues_node, List.flatMap_map]
      exact congrArg (n.const.toList ++ ·) values

theorem hasConst_iff (schema : Schema) : schema.hasConst ↔ schema.constValues ≠ [] := by
  rw [hasConst, List.any_eq_true, constValues, ne_eq, List.filterMap_eq_nil_iff]
  push Not
  simp only [Option.isSome_iff_ne_none]

/-- A visitor that looks for a constant and has no need to go on once there is one. -/
def stopAtConst (n : Node) : Except Unit PUnit := if n.const.isSome then throw () else pure ⟨⟩

/-- A visitor that notes every constant. -/
def noteConst (n : Node) : StateM (List Json) PUnit := modify (· ++ n.const.toList)

theorem visit_stopAtConst (schema : Schema) : schema.visitNodes .keywords stopAtConst = .error () ↔ schema.hasConst := by
  rw [visitNodes_eq, hasConst]
  induction schema.nodes .keywords with
  | nil => simp [Pure.pure, Except.pure]
  | cons n rest ih =>
    rw [List.forM_eq_forM] at ih ⊢
    cases present : n.const.isSome with
    | true => simp [stopAtConst, present, throw, throwThe, MonadExceptOf.throw, Bind.bind, Except.bind]
    | false => simpa [stopAtConst, present] using ih

theorem visit_noteConst (schema : Schema) :
    ((schema.visitNodes .keywords noteConst).run []).2 = schema.constValues := by
  have all (nodes : List Node) (noted : List Json) :
      ((nodes.forM noteConst).run noted).2 = noted ++ nodes.filterMap (·.const) := by
    induction nodes generalizing noted with
    | nil => exact (List.append_nil noted).symm
    | cons n rest ih =>
      have rest := ih (noted ++ n.const.toList)
      rw [List.append_assoc] at rest
      rw [List.filterMap_cons]
      cases present : n.const <;> rw [present] at rest <;> simpa [noteConst, present] using rest
  rw [visitNodes_eq, all, List.nil_append, constValues]

/-- The const pass, the walk that notes all constants and the one that stops at the first agree with the document, before
the pass and after it. -/
theorem constants_ofJson (value : Json) :
    let schema := ofJson value
    schema.constValues = value.constants ∧ schema.normalizeConst.found = value.constants ∧
      (schema.hasConst ↔ value.constants ≠ []) ∧
      schema.normalizeConst.value.constValues = value.constants ∧
      schema.normalizeConst.value.normalizeConst.found = value.constants ∧
      ((schema.visitNodes .keywords noteConst).run []).2 = value.constants ∧
      (schema.visitNodes .keywords stopAtConst = .error () ↔ value.constants ≠ []) := by
  intro schema
  have search : schema.constValues = value.constants := constValues_ofJson value
  obtain ⟨found, kept⟩ := constValues_normalizeConst schema
  have again := (constValues_normalizeConst schema.normalizeConst.value).1
  have has : schema.hasConst ↔ value.constants ≠ [] := search ▸ hasConst_iff schema
  exact ⟨search, found.trans search, has, kept.trans search, (again.trans kept).trans search,
    (visit_noteConst schema).trans search, (visit_stopAtConst schema).trans has⟩

end Schema

end Schemata
