import Schemata.Const.Literal
import Schemata.Pass.Const
import Schemata.Proofs.Json.Members
import Schemata.Proofs.Pass.Const
import Schemata.Proofs.Schema.Fields
import Schemata.Proofs.Schema.Visit

namespace Schemata

namespace HostValue

mutual
/-- The host value that a JSON value is. -/
def ofJson : Json → HostValue
  | .null => .null
  | .bool value => .bool value
  | .number (.int value _) => .int value
  | .number (.float value) => .float value
  | .string value => .text value
  | .array items => .list (ofItems items)
  | .object fields => .map (ofFields fields)

/-- The host values of a list. -/
def ofItems : List Json → List HostValue
  | [] => []
  | value :: rest => ofJson value :: ofItems rest

/-- Entries under texts. -/
def ofFields : List (String × Json) → List (HostValue × HostValue)
  | [] => []
  | (name, value) :: rest => (.text name, ofJson value) :: ofFields rest
end

mutual
/-- A JSON value is its own JSON form. -/
theorem toJson_ofJson (value : Json) (distinct : value.KeysDistinct) : (ofJson value).toJson = .ok value := by
  cases value with
  | null => rfl
  | bool value => rfl
  | number value =>
    cases value with
    | int value inRange => rw [ofJson, toJson, dif_pos inRange]
    | float value => rfl
  | string value => rfl
  | array items =>
    rw [Json.KeysDistinct] at distinct
    rw [ofJson, toJson, itemsToJson_ofItems items distinct]
    rfl
  | object fields =>
    rw [Json.KeysDistinct] at distinct
    rw [ofJson, toJson, entriesToJson_ofFields fields distinct.2]
    exact congrArg (fun fields => Except.ok (Json.object fields)) (Table.insertAll_of_distinct distinct.1)

theorem itemsToJson_ofItems (items : List Json) (distinct : Json.ItemsKeysDistinct items) :
    itemsToJson (ofItems items) = .ok items := by
  cases items with
  | nil => rfl
  | cons value rest =>
    rw [Json.ItemsKeysDistinct] at distinct
    rw [ofItems, itemsToJson, toJson_ofJson value distinct.1, itemsToJson_ofItems rest distinct.2]
    rfl

theorem entriesToJson_ofFields (fields : List (String × Json)) (distinct : Json.FieldsKeysDistinct fields) :
    entriesToJson (ofFields fields) = .ok fields := by
  cases fields with
  | nil => rfl
  | cons field rest =>
    obtain ⟨name, value⟩ := field
    rw [Json.FieldsKeysDistinct] at distinct
    rw [ofFields, entriesToJson, keyText, toJson_ofJson value distinct.1, entriesToJson_ofFields rest distinct.2]
    rfl
end

end HostValue

namespace Node

/-- The entries of a literal before others are laid over them. -/
def literalFields (value : Json) : Table Json :=
  [("const", value), ("type", .string value.tag.name), ("enum", .array [value])]

variable {value : Json} {extra : Table Json}

/-- An admitted value has a node, read from its entries under the further entries. -/
theorem ofHostValue_ofJson (extra : Table Json) (distinct : value.KeysDistinct)
    (admitted : Json.admitted (some value) = .ok value) : Node.ofHostValue (.ofJson value) extra =
      .ok (Schema.nodeOfFields (Table.insertAll (literalFields value) extra)) := by
  rw [Node.ofHostValue, HostValue.literal, HostValue.toJson_ofJson value distinct]
  simp only [admitted]
  rfl

/-- Entries that are keywords do not show among the entries that are carried along. -/
theorem carried_insertAll (fields : Table Json) (keys : ∀ name ∈ Table.keys fields, name ∈ keywords)
    (single : Table.Distinct extra) : (Table.insertAll fields extra).filter (fun entry => entry.1 ∉ keywords) =
      extra.filter fun entry => entry.1 ∉ keywords := by
  have none : fields.filter (fun entry => entry.1 ∉ keywords) = [] := by
    refine List.filter_eq_nil_iff.mpr fun entry member => ?_
    simpa using keys entry.1 (Table.name_mem_keys member)
  rw [Table.filter_insertAll (· ∉ keywords), none]
  exact Table.insertAll_of_distinct (single.sublist List.filter_sublist)

/-- Completing the node of the bare literal gives the node of the literal. -/
theorem completeConst_bare (value : Json) (single : Table.Distinct extra) (own : "const" ∉ Table.keys extra) :
    (Schema.nodeOfFields (Table.insertAll [("const", value)] extra)).completeConst.value =
      Schema.nodeOfFields (Table.insertAll (literalFields value) extra) := by
  have bare (key : String) := Table.lookup_insertAll single [("const", value)] key
  have full (key : String) := Table.lookup_insertAll single (literalFields value) key
  have const : [("const", value)].lookup "const" = some value := rfl
  have carried := carried_insertAll [("const", value)] (by simp [keywords]) single
  have carried' := carried_insertAll (literalFields value) (by simp [keywords, literalFields]) single
  have present : (Schema.nodeOfFields (Table.insertAll [("const", value)] extra)).const = some value := by
    rw [Schema.nodeOfFields_eq]
    simp only [bare, Table.lookup_eq_none own, const, Option.none_or]
  -- only `type` and `enum` are found in the one table and not in the other
  have same (key : String) (type : key ≠ "type") (enum : key ≠ "enum") :
      (Table.insertAll (literalFields value) extra).lookup key =
        (Table.insertAll [("const", value)] extra).lookup key := by
    rw [bare, full, literalFields]
    congr 1
    by_cases const : key = "const"
    · subst const
      rfl
    · simp [List.lookup_cons, beq_false_of_ne type, beq_false_of_ne enum, beq_false_of_ne const]
  have types : (Table.insertAll (literalFields value) extra).lookup "type" =
      some (((Table.insertAll [("const", value)] extra).lookup "type").getD (.string value.tag.name)) := by
    rw [bare, full]
    cases extra.lookup "type" <;> rfl
  have enum : (Table.insertAll (literalFields value) extra).lookup "enum" =
      some (((Table.insertAll [("const", value)] extra).lookup "enum").getD (.array [value])) := by
    rw [bare, full]
    cases extra.lookup "enum" <;> rfl
  rw [NodeOf.completeConst_value present, Schema.nodeOfFields_eq,
    Schema.nodeOfFields_eq (Table.insertAll (literalFields value) extra)]
  simp (disch := decide) only [types, enum, same, carried, carried', Option.map_some]
  congr 2
  · cases (Table.insertAll [("const", value)] extra).lookup "type" <;> rfl
  · cases (Table.insertAll [("const", value)] extra).lookup "enum" <;> rfl

/-- The const pass completes a node that has no subschemas within its reach, and does no more. -/
theorem normalizeConst_of_bare {n : Node} (flat : n.subschemas .keywords = []) : (Schema.node n).normalizeConst =
    { value := .node n.completeConst.value, changed := n.completeConst.changed, found := n.completeConst.found } := by
  have still : n.completeConst.value.subschemas .keywords = [] := by
    cases present : n.const with
    | none => rwa [NodeOf.completeConst_of_none present]
    | some value => rwa [NodeOf.completeConst_value present]
  have walk := Schema.lowering_completeConst
  obtain ⟨same, changed, found⟩ : (Schema.node n).normalizeConst.value = .node n.completeConst.value ∧
      (Schema.node n).normalizeConst.changed = n.completeConst.changed ∧
      (Schema.node n).normalizeConst.found = n.completeConst.found := by
    refine ⟨?_, ?_, ?_⟩
    · rw [Schema.normalizeConst, walk.mapNodes_value, NodeOf.mapReach_eq_self (by simp [still])]
    · rw [Schema.normalizeConst, walk.mapNodes_changed, still, List.any_nil, Bool.or_false]
    · rw [Schema.normalizeConst, walk.mapNodes_found, still, List.flatMap_nil, List.append_nil]
  rw [← same, ← changed, ← found]

/-- The node of a literal alone has its three keywords. -/
theorem nodeOfFields_literalFields (value : Json) : Schema.nodeOfFields (literalFields value) =
    { types := some (.valid (.single value.tag.name)), const := some value, enum := some (.valid [value]) } := by
  rw [Schema.nodeOfFields_eq]
  rfl

/-- The builder and the pass agree. An admitted value has a node, which is read from the entries of the literal with the
further entries laid over them. Where these leave `const` alone, the pass makes the same of the bare literal under the
same entries, but for the subschemas, which it completes as well. Without further entries the two are equal, and the
pass has nothing left to do. -/
theorem ofHostValue_agrees (value : Json) (extra : Table Json) (distinct : value.KeysDistinct)
    (single : Table.Distinct extra) (admitted : Json.admitted (some value) = .ok value) :
    ∃ (fields : Table Json) (n : Node),
      Node.ofHostValue (.ofJson value) extra = .ok n ∧ Schema.ofJson (.object fields) = .node n ∧
      Table.keys fields = ["const", "type", "enum"] ++ (Table.keys extra).filter (· ∉ ["const", "type", "enum"]) ∧
      (∀ key, fields.lookup key = (extra.lookup key).or ((literalFields value).lookup key)) ∧
      ("const" ∉ Table.keys extra →
        (Schema.ofJson (.object (Table.insertAll [("const", value)] extra))).normalizeConst.value =
          .node (n.mapReach .keywords fun s => s.normalizeConst.value)) ∧
      (extra = [] →
        (Schema.ofJson (.object [("const", value)])).normalizeConst.value = .node n ∧
        (Schema.node n).normalizeConst = { value := .node n, changed := false, found := [value] }) := by
  refine ⟨Table.insertAll (literalFields value) extra, _, ofHostValue_ofJson extra distinct admitted, ?_, ?_, ?_, ?_, ?_⟩
  · rw [Schema.ofJson]
  · exact Table.keys_insertAll single (literalFields value)
  · exact Table.lookup_insertAll single (literalFields value)
  · intro own
    rw [Schema.ofJson, Schema.normalizeConst, Schema.lowering_completeConst.mapNodes_value,
      completeConst_bare value single own]
    rfl
  · rintro rfl
    have whole : Table.insertAll (literalFields value) [] = literalFields value := rfl
    have bare := completeConst_bare value single (by simp)
    rw [whole] at bare ⊢
    have subschemas : (Schema.nodeOfFields (literalFields value)).subschemas .keywords = [] := by
      rw [nodeOfFields_literalFields]
      rfl
    constructor
    · rw [Schema.ofJson, normalizeConst_of_bare (by rw [Schema.nodeOfFields_eq]; rfl)]
      exact congrArg Schema.node bare
    · rw [normalizeConst_of_bare subschemas, nodeOfFields_literalFields]
      rfl

/-- A `type` of the wrong shape and a subschema to complete, over a literal that is a container. -/
theorem ofHostValue_agrees_misshapen :
    let value := Json.object [("a", .array [])]
    let extra : Table Json := [("items", .object [("const", .null)]), ("type", .bool true)]
    value.KeysDistinct ∧ Table.Distinct extra ∧ Json.admitted (some value) = .ok value ∧
      ∃ (fields : Table Json) (n : Node), Node.ofHostValue (.ofJson value) extra = .ok n ∧
        Schema.ofJson (.object fields) = .node n ∧ Table.keys fields = ["const", "type", "enum", "items"] ∧
        (Schema.ofJson (.object (Table.insertAll [("const", value)] extra))).normalizeConst.value =
          .node (n.mapReach .keywords fun s => s.normalizeConst.value) := by
  intro value extra
  have distinct : value.KeysDistinct := by
    simp [value, Json.KeysDistinct, Json.FieldsKeysDistinct, Json.ItemsKeysDistinct, Table.Distinct]
  have single : Table.Distinct extra := (by decide : ["items", "type"].Nodup)
  have admitted : Json.admitted (some value) = .ok value := by
    simp [value, Json.admitted, Json.nestWithin, Json.contents?, Json.maxDepth]
  obtain ⟨fields, n, built, read, keys, -, pass, -⟩ := ofHostValue_agrees value extra distinct single admitted
  exact ⟨distinct, single, admitted, fields, n, built, read, keys, pass (by simp [extra])⟩

end Node

end Schemata
