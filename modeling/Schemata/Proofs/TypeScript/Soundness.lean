import Schemata.Proofs.Json.Pointer
import Schemata.Proofs.Schema.Acceptance
import Schemata.Proofs.Text.Cut
import Schemata.Proofs.Text.Percent
import Schemata.Proofs.TypeScript.Literal

namespace Schemata

/-- The reference points at the definition of that name, once its percent escapes and its tokens are read. -/
def Reference.LeadsTo (reference name : String) : Prop :=
  ∃ text, reference = "#" ++ text ∧ (Text.percentDecode? text).bind Pointer.ofText? = some ["definitions", name]

/-- A canonical reference without percent signs points at a definition when it has one token below the table. -/
theorem Reference.leadsTo_canonical_iff {text name : String} (percent : '%' ∉ text.toList) :
    LeadsTo (canonicalStart ++ text) name ↔ '/' ∉ text.toList ∧ Pointer.unescape text = name := by
  have written : canonicalStart ++ text = "#" ++ ("/" ++ "definitions" ++ "/" ++ text) := by
    rw [canonicalStart, ← String.append_assoc, ← String.append_assoc, ← String.append_assoc]
    rfl
  have decoded : Text.percentDecode? ("/" ++ "definitions" ++ "/" ++ text) = some ("/" ++ "definitions" ++ "/" ++ text) := by
    refine Text.percentDecode?_of_plain ?_
    simp [String.toList_append, percent]
  have tokens : Pointer.ofText? ("/" ++ "definitions" ++ "/" ++ text) = some ["definitions", name] ↔
      '/' ∉ text.toList ∧ Pointer.unescape text = name := by
    rw [Pointer.ofText?_append (by decide) (by decide), ← Pointer.ofText?_eq_singleton_iff, Option.map_eq_some_iff]
    constructor
    · rintro ⟨path, read, same⟩
      rw [read, (List.cons.inj same).2]
    · exact fun read => ⟨_, read, rfl⟩
  rw [← tokens, written]
  constructor
  · rintro ⟨other, same, leads⟩
    obtain rfl : "/" ++ "definitions" ++ "/" ++ text = other := by
      have cut := Text.dropStart?_eq_some_iff.mpr same
      rw [Text.dropStart?_append] at cut
      exact Option.some.inj cut
    rwa [decoded, Option.bind_some] at leads
  · intro leads
    exact ⟨_, rfl, by rw [decoded, Option.bind_some, leads]⟩

/-- The canonical reference of an ordinary name points at its definition. -/
theorem Reference.leadsTo_of_plain {name : String} (percent : '%' ∉ name.toList) (tilde : '~' ∉ name.toList)
    (slash : '/' ∉ name.toList) : LeadsTo (canonicalStart ++ name) name := by
  refine (leadsTo_canonical_iff percent).mpr ⟨slash, ?_⟩
  rw [Pointer.unescape, Pointer.unescapeChars_of_plain tilde, String.ofList_toList]

namespace NodeOf

variable {S : Type}

/-- The patterns that declare properties. -/
def patterns (n : NodeOf S) : List String :=
  match n.extra.lookup "patternProperties" with
  | some (.object patterns) => Table.keys patterns
  | _ => []

/-- The type is made from the keywords: nothing else comes before them. -/
structure Structural (n : Node) : Prop where
  reference : n.reference = none
  const : n.const = none
  enum : ∀ values, n.enum ≠ some (.valid values)

/-- The subschemas whose types go into the type of the node. -/
def Converts (n : Node) (s : Schema) : Prop :=
  n.Structural ∧
    (("object" ∈ n.typeNames ∧ (s ∈ declared n.properties ∨ n.additionalProperties = some s)) ∨
      ("array" ∈ n.typeNames ∧ n.items = some (.single s)) ∨
      s ∈ listed n.allOf ∨ s ∈ listed n.anyOf ∨ s ∈ listed n.oneOf)

/-- What keeps the type of a node wide enough, apart from its subschemas. -/
structure Expressible (names : Table String) (n : Node) : Prop where
  reference : ∀ key, n.reference = some (.valid (Reference.canonicalStart ++ key)) → (names.lookup key).isSome →
    Reference.LeadsTo (Reference.canonicalStart ++ key) key
  const : n.reference = none → ∀ value, n.const = some value → value.HasLiteral
  enum : n.reference = none → n.const = none → ∀ values, n.enum = some (.valid values) →
    ∀ value ∈ values, value.HasLiteral
  typed : n.Structural → n.properties.isSome ∨ n.items.isSome ∨ n.additionalProperties.isSome → n.typeNames ≠ []
  arrays : n.Structural → "array" ∈ n.typeNames → ∀ schemas, n.items ≠ some (.positional schemas)
  objects : n.Structural → "object" ∈ n.typeNames → ∀ others, n.additionalProperties = some others →
    others = .bool true ∨ (∃ value, others = .malformed value) ∨
    (others = .bool false ∧ (declared n.properties ≠ [] ∨ n.requiredNames ≠ [])) ∨
    (declared n.properties = [] ∧ n.patterns = [])

end NodeOf

/-- The type of the schema is wide enough, at every node that is converted. -/
inductive Schema.Expressible (names : Table String) : Schema → Prop
  | bool (value : Bool) : Expressible names (.bool value)
  | malformed (value : Json) : Expressible names (.malformed value)
  | node (n : Node) (here : n.Expressible names) (below : ∀ s, n.Converts s → Expressible names s) :
    Expressible names (.node n)

/-- A value of a type is of the kind that the type is about. -/
theorem Json.kind_of_hasType {x : Json} {tag : TypeTag} (holds : x.hasType tag) : match tag with
    | .null => Primitive.null.Holds x
    | .boolean => Primitive.boolean.Holds x
    | .integer => Primitive.number.Holds x
    | .number => Primitive.number.Holds x
    | .string => Primitive.string.Holds x
    | .array => ∃ values, x = .array values
    | .object => ∃ fields, x = .object fields := by
  cases x with
  | number n =>
    have own : (Json.number n).tag = .integer ∨ (Json.number n).tag = .number := by
      rw [Json.tag]
      split
      · exact Or.inl rfl
      · exact Or.inr rfl
    cases tag with
    | integer => exact ⟨n, rfl⟩
    | number => exact ⟨n, rfl⟩
    | _ => rcases own with same | same <;> simp [Json.hasType, same] at holds
  | null => cases tag <;> first | rfl | cases holds
  | _ => cases tag <;> first | exact ⟨_, rfl⟩ | cases holds

namespace TsType

variable {names : Table String} {env : String → Json → Prop} {I : Interpretation} {n : Node} {x : Json}

theorem ofList_eq (names : Table String) (schemas : List Schema) : ofList names schemas = schemas.map (ofSchema names) := by
  induction schemas with
  | nil => rw [ofList, List.map_nil]
  | cons schema rest ih => rw [ofList, ih, List.map_cons]

theorem mem_ofTable {required : List String} {table : Table Schema} {property : Property}
    (member : property ∈ ofTable names required table) : ∃ entry ∈ table,
      property.name = entry.1 ∧ property.type = ofSchema names entry.2 ∧
        property.isOptional = !required.contains entry.1 := by
  induction table with
  | nil =>
    rw [ofTable] at member
    cases member
  | cons entry rest ih =>
    rw [ofTable] at member
    rcases List.mem_cons.mp member with rfl | later
    · exact ⟨entry, List.mem_cons_self, rfl, rfl, rfl⟩
    · obtain ⟨entry, listed, same⟩ := ih later
      exact ⟨entry, List.mem_cons_of_mem _ listed, same⟩

theorem mem_undeclared {declared : List Property} {required : List String} {property : Property}
    (member : property ∈ undeclared declared required) : property.name ∈ required ∧ property.type = unknown := by
  induction required generalizing declared with
  | nil => cases member
  | cons name rest ih =>
    rw [undeclared] at member
    split at member
    · exact (ih member).imp_left (List.mem_cons_of_mem _)
    · rcases List.mem_cons.mp member with rfl | later
      · exact ⟨List.mem_cons_self, rfl⟩
      · exact (ih later).imp_left (List.mem_cons_of_mem _)

theorem ofSchema_node (names : Table String) (n : Node) :
    ofSchema names (.node n) = ofForemost names n.reference n.const n.enum (intersectionOf
      (ofTypeNames n.typeNames (n.properties.isSome || n.additionalProperties.isSome) n.items.isSome
        (ofElements names (ofLater names n.additionalItems) n.items)
        (ofProperties (ofDeclared names n.requiredNames n.properties) n.requiredNames
          (ofOthers names n.additionalProperties)) ::
        (ofListed names intersectionOf n.allOf ++ ofListed names unionOf n.anyOf ++
          ofListed names unionOf n.oneOf))) := by
  cases n
  rw [ofSchema, ofNode]
  rfl

theorem ofSchema_structural (structural : n.Structural) : ofSchema names (.node n) = intersectionOf
    (ofTypeNames n.typeNames (n.properties.isSome || n.additionalProperties.isSome) n.items.isSome
      (ofElements names (ofLater names n.additionalItems) n.items)
      (ofProperties (ofDeclared names n.requiredNames n.properties) n.requiredNames
        (ofOthers names n.additionalProperties)) ::
      (ofListed names intersectionOf n.allOf ++ ofListed names unionOf n.anyOf ++ ofListed names unionOf n.oneOf)) := by
  rw [ofSchema_node, structural.reference, structural.const]
  unfold ofForemost
  split
  · cases ‹none = some _›
  · cases ‹none = some _›
  · rename_i given
    exact absurd given (structural.enum _)
  · rfl

/-- The subschemas that are converted are safe. -/
def Safe (names : Table String) (env : String → Json → Prop) (I : Interpretation) (s : Schema) : Prop :=
  ∀ x, s.Accepts I x → (ofSchema names s).Inhabits env x

theorem inhabits_ofReference (covers : ∀ reference name ident, Reference.LeadsTo reference name →
      names.lookup name = some ident → ∀ x, I.reference reference x → env ident x)
    {reference : String} (leads : ∀ key, reference = Reference.canonicalStart ++ key → (names.lookup key).isSome →
      Reference.LeadsTo reference key) (accepted : I.reference reference x) :
    (ofReference names (.valid reference)).Inhabits env x := by
  rw [ofReference]
  split
  · rename_i ident found
    obtain ⟨key, cut, listed⟩ := Option.bind_eq_some_iff.mp found
    have written : reference = Reference.canonicalStart ++ key := Text.dropStart?_eq_some_iff.mp cut
    rw [Inhabits]
    exact covers reference key ident (leads key written (Option.isSome_of_eq_some listed)) listed x accepted
  · exact inhabits_unknown

theorem inhabits_ofElements (safe : ∀ s, n.items = some (.single s) → Safe names env I s)
    (single : ∀ schemas, n.items ≠ some (.positional schemas)) (met : (n.map (Schema.Accepts I)).Meets I x)
    {values : List Json} (array : x = .array values) (later : Option TsType) :
    (ofElements names later n.items).Inhabits env x := by
  rcases given : n.items with - | (schemas | schema)
  · rw [ofElements, Inhabits]
    exact ⟨values, array, fun value _ => inhabits_unknown⟩
  · exact absurd given (single schemas)
  · have every := met.single (schema.Accepts I) (congrArg (Option.map (Items.map _)) given) values array
    rw [ofElements, Inhabits]
    exact ⟨values, array, fun value member => safe schema given value (every value member)⟩

theorem has_of_required (met : (n.map (Schema.Accepts I)).Meets I x) {fields : Table Json} (object : x = .object fields)
    {name : String} (member : name ∈ n.requiredNames) : Table.has fields name := by
  rcases given : n.required with - | (required | value)
  · simp [NodeOf.requiredNames, given] at member
  · refine met.required required given fields object name ?_
    simpa [NodeOf.requiredNames, given, Slot.valid?] using member
  · simp [NodeOf.requiredNames, given, Slot.valid?] at member

/-- A property of the type is a declared one, or a required one of which nothing else is known. -/
theorem property_inhabited (safe : ∀ s ∈ NodeOf.declared n.properties, Safe names env I s)
    (met : (n.map (Schema.Accepts I)).Meets I x) {fields : Table Json} (object : x = .object fields)
    {property : Property} (member : property ∈ ofDeclared names n.requiredNames n.properties ++
      undeclared (ofDeclared names n.requiredNames n.properties) n.requiredNames) :
    (property.isOptional = false → Table.has fields property.name) ∧
      ∀ value, fields.lookup property.name = some value → property.type.Inhabits env value := by
  rcases List.mem_append.mp member with inside | added
  · rcases given : n.properties with - | (table | value)
    · rw [given, ofDeclared] at inside
      cases inside
      nofun
    · rw [given, ofDeclared] at inside
      obtain ⟨entry, listed, name, type, optional⟩ := mem_ofTable inside
      rw [name, type, optional]
      refine ⟨fun needed => ?_, fun value found => ?_⟩
      · refine has_of_required met object ?_
        simpa using needed
      · have declared : entry.2 ∈ NodeOf.declared n.properties := by
          rw [given]
          exact List.mem_map_of_mem listed
        have asked := met.properties _ (congrArg (Option.map (Slot.map _)) given) fields object
          (entry.1, entry.2.Accepts I) (List.mem_map_of_mem listed) value found
        exact safe entry.2 declared value asked
    · rw [given, ofDeclared] at inside
      cases inside
      nofun
  · obtain ⟨required, type⟩ := mem_undeclared added
    rw [type]
    exact ⟨fun _ => has_of_required met object required, fun value _ => inhabits_unknown⟩

theorem not_declares (none : NodeOf.declared n.properties = []) (bare : n.patterns = []) (name : String) :
    ¬ (n.map (Schema.Accepts I)).Declares I name := by
  rintro (⟨table, given, member⟩ | ⟨patterns, given, pattern, member, -⟩)
  · obtain ⟨slot, own, image⟩ := Option.map_eq_some_iff.mp (show n.properties.map _ = _ from given)
    cases slot with
    | malformed value => cases image
    | valid entries =>
      cases image
      rw [own] at none
      have empty : entries = [] := List.map_eq_nil_iff.mp none
      rw [empty] at member
      cases member
  · have keys : n.patterns = Table.keys patterns := by
      change n.extra.lookup _ = _ at given
      rw [NodeOf.patterns, given]
    rw [← keys, bare] at member
    cases member

/-- Without declarations every other property is asked about, so all of them have the type. -/
theorem others_inhabited {others : Schema} (given : n.additionalProperties = some others)
    (safe : Safe names env I others) (met : (n.map (Schema.Accepts I)).Meets I x) {fields : Table Json}
    (object : x = .object fields)
    (free : others = .bool true ∨ (∃ value, others = .malformed value) ∨
      (NodeOf.declared n.properties = [] ∧ n.patterns = [])) :
    ∀ field ∈ fields, (ofSchema names others).Inhabits env field.2 := by
  intro field member
  rcases free with rfl | ⟨value, rfl⟩ | ⟨none, bare⟩
  · rw [ofSchema]
    exact inhabits_unknown
  · rw [ofSchema]
    exact inhabits_unknown
  · refine safe field.2 (met.additionalProperties (others.Accepts I) ?_ fields object field member
      (not_declares none bare field.1))
    exact congrArg (Option.map _) given

/-- Objects inhabit their type when they have the properties and everything else is of the other type. -/
theorem inhabits_ofProperties {declared : List Property} {required : List String} {others : Others} {fields : Table Json}
    (object : x = .object fields)
    (whole : (TsType.object (declared ++ undeclared declared required)).Inhabits env x)
    (closed : others = .closed → declared ++ undeclared declared required = [] →
      ∀ field ∈ fields, never.Inhabits env field.2)
    (typed : ∀ type, others = .typed type → ∀ field ∈ fields, type.Inhabits env field.2) :
    (ofProperties declared required others).Inhabits env x := by
  unfold ofProperties
  split
  · exact inhabits_stringRecord.mpr ⟨fields, object, fun field _ => inhabits_unknown⟩
  · rename_i empty
    exact inhabits_stringRecord.mpr ⟨fields, object, closed rfl empty⟩
  · exact inhabits_stringRecord.mpr ⟨fields, object, typed _ rfl⟩
  · rw [inhabits_intersection, List.forall_mem_cons, List.forall_mem_singleton]
    exact ⟨whole, inhabits_stringRecord.mpr ⟨fields, object, typed _ rfl⟩⟩
  · exact whole

/-- A node without properties in its type declares none and requires none. -/
theorem absent_of_properties (empty : ofDeclared names n.requiredNames n.properties ++
      undeclared (ofDeclared names n.requiredNames n.properties) n.requiredNames = []) :
    NodeOf.declared n.properties = [] ∧ n.requiredNames = [] := by
  obtain ⟨first, second⟩ := List.append_eq_nil_iff.mp empty
  rw [first] at second
  constructor
  · rcases given : n.properties with - | (table | value)
    · rfl
    · cases table with
      | nil => rfl
      | cons entry rest =>
        rw [given, ofDeclared, ofTable] at first
        cases first
    · rfl
  · cases required : n.requiredNames with
    | nil => rfl
    | cons name rest =>
      rw [required, undeclared] at second
      simp at second

theorem inhabits_objects (here : n.Expressible names) (structural : n.Structural) (typed : "object" ∈ n.typeNames)
    (safeDeclared : ∀ s ∈ NodeOf.declared n.properties, Safe names env I s)
    (safeOthers : ∀ s, n.additionalProperties = some s → Safe names env I s)
    (met : (n.map (Schema.Accepts I)).Meets I x) {fields : Table Json} (object : x = .object fields) :
    (ofProperties (ofDeclared names n.requiredNames n.properties) n.requiredNames
      (ofOthers names n.additionalProperties)).Inhabits env x := by
  have known := fun property => @property_inhabited names env I n x safeDeclared met fields object property
  refine inhabits_ofProperties object (inhabits_object.mpr ⟨fields, object, known⟩) ?_ ?_
  · intro closed empty
    obtain ⟨none, free⟩ := absent_of_properties empty
    have given : n.additionalProperties = some (.bool false) := by
      unfold ofOthers at closed
      split at closed
      · cases closed
      · rename_i given
        exact given
      · cases closed
    have never : ofSchema names (.bool false) = TsType.never := by rw [ofSchema]
    rw [← never]
    refine others_inhabited given (safeOthers _ given) met object (Or.inr (Or.inr ⟨none, ?_⟩))
    rcases here.objects structural typed _ given with impossible | ⟨value, impossible⟩ | ⟨-, kept⟩ | ⟨-, bare⟩
    · cases impossible
    · cases impossible
    · rcases kept with declared | required
      · exact absurd none declared
      · exact absurd free required
    · exact bare
  · intro type same
    unfold ofOthers at same
    split at same
    · cases same
    · cases same
    · rename_i schema open_ given
      cases same
      refine others_inhabited given (safeOthers _ given) met object ?_
      rcases here.objects structural typed _ given with whole | broken | ⟨closed, -⟩ | bare
      · exact Or.inl whole
      · exact Or.inr (Or.inl broken)
      · exact absurd closed open_
      · exact Or.inr (Or.inr bare)

theorem inhabits_ofTypeName {arrays objects : TsType} {name : String} (typed : x.IsOfType name)
    (array : name = "array" → ∀ values, x = .array values → arrays.Inhabits env x)
    (object : name = "object" → ∀ fields, x = .object fields → objects.Inhabits env x) :
    (ofTypeName arrays objects name).Inhabits env x := by
  obtain ⟨tag, found, holds⟩ := typed
  obtain rfl : tag.name = name := by simpa using List.find?_some found
  have kind := Json.kind_of_hasType holds
  cases tag with
  | array =>
    obtain ⟨values, same⟩ := kind
    exact array rfl values same
  | object =>
    obtain ⟨fields, same⟩ := kind
    exact object rfl fields same
  | _ => exact kind

/-- What the type names and the keywords next to them ask. -/
theorem inhabits_base (here : n.Expressible names) (structural : n.Structural)
    (safe : ∀ s, n.Converts s → Safe names env I s) (met : (n.map (Schema.Accepts I)).Meets I x) :
    (ofTypeNames n.typeNames (n.properties.isSome || n.additionalProperties.isSome) n.items.isSome
      (ofElements names (ofLater names n.additionalItems) n.items)
      (ofProperties (ofDeclared names n.requiredNames n.properties) n.requiredNames
        (ofOthers names n.additionalProperties))).Inhabits env x := by
  unfold ofTypeNames
  split
  · rename_i untyped
    have bare := mt (here.typed structural) (not_not_intro untyped)
    rw [not_or, not_or] at bare
    obtain ⟨properties, items, others⟩ := bare
    rw [if_neg (by simp [properties, others]), if_neg items]
    exact inhabits_unknown
  · rename_i some_
    rcases given : n.types with - | (types | value)
    · exact absurd (by simp [NodeOf.typeNames, given]) some_
    · have names : n.typeNames = types.names := by simp [NodeOf.typeNames, given, Slot.valid?]
      obtain ⟨name, listed, typed⟩ := met.types types given
      rw [← names] at listed
      refine (inhabits_unionOf env _ x).mpr ⟨_, List.mem_map_of_mem listed, inhabits_ofTypeName typed ?_ ?_⟩
      · rintro rfl values array
        exact inhabits_ofElements (fun s single => safe s ⟨structural, Or.inr (Or.inl ⟨listed, single⟩)⟩)
          (here.arrays structural listed) met array _
      · rintro rfl fields object
        exact inhabits_objects here structural listed
          (fun s member => safe s ⟨structural, Or.inl ⟨listed, Or.inl member⟩⟩)
          (fun s others => safe s ⟨structural, Or.inl ⟨listed, Or.inr others⟩⟩) met object
    · exact absurd (by simp [NodeOf.typeNames, given, Slot.valid?]) some_

theorem inhabits_allOf (safe : ∀ s ∈ NodeOf.listed n.allOf, Safe names env I s)
    (met : (n.map (Schema.Accepts I)).Meets I x) :
    ∀ type ∈ ofListed names intersectionOf n.allOf, type.Inhabits env x := by
  intro type member
  rcases given : n.allOf with - | (schemas | value)
  · rw [given, ofListed] at member
    · cases member
    · nofun
  · rw [given, ofListed, List.mem_singleton] at member
    rw [member, ofList_eq, inhabits_intersectionOf, List.forall_mem_map]
    intro s inside
    have all := met.allOf _ (congrArg (Option.map (Slot.map _)) given) (s.Accepts I) (List.mem_map_of_mem inside)
    refine safe s ?_ x all
    rw [given]
    exact inside
  · rw [given, ofListed] at member
    · cases member
    · nofun

theorem inhabits_oneListed {slot : Option (Slot (List Schema))} (safe : ∀ s ∈ NodeOf.listed slot, Safe names env I s)
    (one : ∀ schemas, slot = some (.valid schemas) → ∃ s ∈ schemas, s.Accepts I x) :
    ∀ type ∈ ofListed names unionOf slot, type.Inhabits env x := by
  intro type member
  rcases slot with - | (schemas | value)
  · rw [ofListed] at member
    · cases member
    · nofun
  · rw [ofListed, List.mem_singleton] at member
    obtain ⟨s, inside, accepted⟩ := one schemas rfl
    rw [member, ofList_eq, inhabits_unionOf]
    exact ⟨_, List.mem_map_of_mem inside, safe s inside x accepted⟩
  · rw [ofListed] at member
    · cases member
    · nofun

theorem inhabits_keywords (here : n.Expressible names) (structural : n.Structural)
    (safe : ∀ s, n.Converts s → Safe names env I s) (met : (n.map (Schema.Accepts I)).Meets I x) :
    (ofSchema names (.node n)).Inhabits env x := by
  have any (schemas : List Schema) (given : n.anyOf = some (.valid schemas)) : ∃ s ∈ schemas, s.Accepts I x := by
    obtain ⟨accepts, member, holds⟩ := met.anyOf _ (congrArg (Option.map (Slot.map _)) given)
    obtain ⟨s, inside, rfl⟩ := List.mem_map.mp member
    exact ⟨s, inside, holds⟩
  have one (schemas : List Schema) (given : n.oneOf = some (.valid schemas)) : ∃ s ∈ schemas, s.Accepts I x := by
    obtain ⟨before, accepts, after, members, holds, -⟩ := met.oneOf _ (congrArg (Option.map (Slot.map _)) given)
    obtain ⟨s, inside, rfl⟩ := List.mem_map.mp (members ▸ List.mem_append_right before List.mem_cons_self)
    exact ⟨s, inside, holds⟩
  rw [ofSchema_structural structural, inhabits_intersectionOf]
  simp only [List.forall_mem_cons, List.forall_mem_append]
  refine ⟨inhabits_base here structural safe met, ⟨inhabits_allOf (fun s inside => safe s ⟨structural, ?_⟩) met,
    inhabits_oneListed (fun s inside => safe s ⟨structural, ?_⟩) any⟩,
    inhabits_oneListed (fun s inside => safe s ⟨structural, ?_⟩) one⟩
  · exact Or.inr (Or.inr (Or.inl inside))
  · exact Or.inr (Or.inr (Or.inr (Or.inl inside)))
  · exact Or.inr (Or.inr (Or.inr (Or.inr inside)))

end TsType

/-- The generated types are sound: where every name stands for a set that holds what its definition accepts, the type
of a schema holds what the schema accepts. -/
theorem Schema.inhabits_ofSchema {names : Table String} {env : String → Json → Prop} {I : Interpretation}
    (covers : ∀ reference name ident, Reference.LeadsTo reference name → names.lookup name = some ident →
      ∀ x, I.reference reference x → env ident x)
    {schema : Schema} (expressible : schema.Expressible names) {x : Json} (accepted : schema.Accepts I x) :
    (TsType.ofSchema names schema).Inhabits env x := by
  induction expressible generalizing x with
  | bool value =>
    cases value with
    | true =>
      rw [TsType.ofSchema]
      exact TsType.inhabits_unknown
    | false => cases accepted
  | malformed value =>
    rw [TsType.ofSchema]
    exact TsType.inhabits_unknown
  | node n here below safe =>
    rw [accepts_node] at accepted
    rcases reference : n.reference with - | (text | value)
    · have met := (NodeOf.accepts_iff_meets (n := n.map (Accepts I)) fun text given => by
        cases reference.symm.trans given).mp accepted
      cases const : n.const with
      | some value =>
        rw [TsType.ofSchema_node, reference, const, TsType.ofForemost]
        exact TsType.inhabits_ofJson value (here.const reference value const) x (met.const value const)
      | none =>
        by_cases listed : ∃ values, n.enum = some (.valid values)
        · obtain ⟨values, enum⟩ := listed
          obtain ⟨value, inside, same⟩ := met.enum values enum
          rw [TsType.ofSchema_node, reference, const, enum, TsType.ofForemost, TsType.inhabits_unionOf]
          have literal := here.enum reference const values enum value inside
          exact ⟨_, List.mem_map_of_mem inside, TsType.inhabits_ofJson value literal x same⟩
        · have structural : n.Structural := ⟨reference, const, not_exists.mp listed⟩
          exact TsType.inhabits_keywords here structural (fun s converts x => safe s converts) met
    · have target : I.reference text x := by
        unfold NodeOf.Accepts at accepted
        split at accepted
        · rename_i given
          cases reference.symm.trans given
          exact accepted
        · rename_i other
          exact absurd reference (other text)
      rw [TsType.ofSchema_node, reference, TsType.ofForemost]
      refine TsType.inhabits_ofReference covers (fun key written present => ?_) target
      rw [written] at reference ⊢
      exact here.reference key reference present
    · rw [TsType.ofSchema_node, reference, TsType.ofForemost, TsType.ofReference]
      exact TsType.inhabits_unknown

/-- An object with a property that refers to a definition of texts. -/
theorem Schema.inhabits_ofSchema_reference :
    let names : Table String := [("Tag", "Tag")]
    let texts : Json → Prop := fun x => ∃ text, x = .string text
    let I : Interpretation := ⟨fun reference x => reference = "#/definitions/Tag" ∧ texts x, fun _ _ _ => True,
      fun _ _ _ => True, fun _ _ => True, fun _ _ => False⟩
    let tag : Schema := .node { reference := some (.valid "#/definitions/Tag") }
    let schema : Schema := .node
      { types := some (.valid (.single "object")), properties := some (.valid [("tag", tag)]),
        required := some (.valid ["tag"]) }
    let x : Json := .object [("tag", .string "red")]
    schema.Expressible names ∧ schema.Accepts I x ∧ (TsType.ofSchema names schema).Inhabits (fun _ => texts) x := by
  intro names texts I tag schema x
  have expressible : schema.Expressible names := by
    have leads : Reference.LeadsTo (Reference.canonicalStart ++ "Tag") "Tag" :=
      Reference.leadsTo_of_plain (by decide) (by decide) (by decide)
    have inner : tag.Expressible names := by
      refine .node _ ⟨fun key given _ => ?_, by nofun, by nofun, by nofun, by nofun, by nofun⟩ ?_
      · obtain rfl : "Tag" = key := by
          have same := congrArg (·.bind Slot.valid?) given
          have cut := Text.dropStart?_eq_some_iff.mpr (Option.some.inj same)
          exact Option.some.inj (cut.symm.trans (Text.dropStart?_append _ "Tag")).symm
        exact leads
      · rintro s ⟨⟨reference, -, -⟩, -⟩
        cases reference
    refine .node _ ⟨by nofun, by nofun, by nofun, fun _ _ => by nofun, by nofun, by nofun⟩ ?_
    rintro s ⟨-, ⟨-, member | given⟩ | ⟨-, given⟩ | member | member | member⟩
    · rw [List.mem_singleton.mp member]
      exact inner
    · cases given
    · cases given
    · cases member
    · cases member
    · cases member
  have accepted : schema.Accepts I x := by
    have text : tag.Accepts I (.string "red") := (accepts_node _).mpr ⟨rfl, "red", rfl⟩
    refine (accepts_node _).mpr (show NodeOf.Meets _ _ _ from
      { NodeOf.meets_empty I x with
        types := ?_
        properties := ?_
        required := ?_
        additionalProperties := by nofun })
    · rintro _ ⟨⟩
      exact ⟨"object", List.mem_singleton_self _, .object, rfl, rfl⟩
    · rintro _ ⟨⟩ fields object entry member value found
      obtain rfl : [("tag", Json.string "red")] = fields := Json.object.inj object
      obtain rfl := List.mem_singleton.mp member
      cases found
      exact text
    · rintro _ ⟨⟩ fields object name member
      obtain rfl : [("tag", Json.string "red")] = fields := Json.object.inj object
      rw [List.mem_singleton.mp member]
      rfl
  have covers (reference name ident : String) (_ : Reference.LeadsTo reference name)
      (_ : names.lookup name = some ident) (y : Json) (held : I.reference reference y) : texts y := held.2
  exact ⟨expressible, accepted, inhabits_ofSchema covers expressible accepted⟩

end Schemata
