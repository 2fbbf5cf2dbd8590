import Schemata.Proofs.Table
import Schemata.Proofs.TypeScript.Soundness

namespace Schemata

/-- Every floating-point number in the literal is a number. -/
def Literal.Finite : Literal → Prop
  | .number value => ∃ number, value = .finite number
  | _ => True

namespace TsType

/-- Holds of the simple types, with the names of the table as the only names, and is kept by everything that the
conversion builds types with. -/
structure ConversionInvariant (names : Table String) (Q : TsType → Prop) : Prop where
  primitive : ∀ kind, Q (.primitive kind)
  literal : ∀ value : Literal, value.Finite → Q (.literal value)
  ref : ∀ name ∈ names.map (·.2), Q (.ref name)
  array : ∀ element, Q element → Q (.array element)
  tuple : ∀ items rest, (∀ item ∈ items, Q item) → (∀ element ∈ rest, Q element) → Q (.tuple items rest)
  object : ∀ properties : List Property, (∀ property ∈ properties, Q property.type) → Q (.object properties)
  record : ∀ value, Q value → Q (stringRecord value)
  both : ∀ properties value, Q (.object properties) → Q (stringRecord value) →
    Q (.intersection [.object properties, stringRecord value])
  union : ∀ types, (∀ type ∈ types, Q type) → Q (unionOf types)
  intersection : ∀ types, (∀ type ∈ types, Q type) → Q (intersectionOf types)

namespace ConversionInvariant

variable {names : Table String} {Q : TsType → Prop} {n : Node}

theorem unknown (invariant : ConversionInvariant names Q) : Q unknown := invariant.primitive .unknown

theorem never (invariant : ConversionInvariant names Q) : Q never := invariant.primitive .never

theorem ofNumber (invariant : ConversionInvariant names Q) (n : Number) : Q (.literal (.ofNumber n)) := by
  refine invariant.literal _ ?_
  cases n with
  | float value => exact ⟨value, rfl⟩
  | int value inRange =>
    rw [Literal.ofNumber]
    split
    · trivial
    · exact ⟨_, rfl⟩

mutual
theorem ofJson (invariant : ConversionInvariant names Q) (value : Json) : Q (TsType.ofJson value) := by
  cases value with
  | null => exact invariant.literal _ trivial
  | bool value => exact invariant.literal _ trivial
  | string value => exact invariant.literal _ trivial
  | number n => exact invariant.ofNumber n
  | array items =>
    rw [TsType.ofJson]
    exact invariant.tuple _ _ (ofItems invariant items) (fun element none => by cases none)
  | object fields =>
    rw [TsType.ofJson]
    exact invariant.object _ (ofFields invariant fields)
termination_by sizeOf value

theorem ofItems (invariant : ConversionInvariant names Q) (items : List Json) :
    ∀ type ∈ TsType.ofItems items, Q type := by
  cases items with
  | nil =>
    rw [TsType.ofItems]
    exact fun type member => absurd member List.not_mem_nil
  | cons item items =>
    rw [TsType.ofItems]
    exact List.forall_mem_cons.mpr ⟨ofJson invariant item, ofItems invariant items⟩
termination_by sizeOf items

theorem ofFields (invariant : ConversionInvariant names Q) (fields : List (String × Json)) :
    ∀ property ∈ TsType.ofFields fields, Q property.type := by
  cases fields with
  | nil =>
    rw [TsType.ofFields]
    exact fun property member => absurd member List.not_mem_nil
  | cons field fields =>
    obtain ⟨name, value⟩ := field
    rw [TsType.ofFields]
    exact List.forall_mem_cons.mpr ⟨ofJson invariant value, ofFields invariant fields⟩
termination_by sizeOf fields
end

theorem ofReference (invariant : ConversionInvariant names Q) (reference : Slot String) :
    Q (TsType.ofReference names reference) := by
  unfold TsType.ofReference
  split
  · split
    · rename_i name found
      obtain ⟨key, -, listed⟩ := Option.bind_eq_some_iff.mp found
      exact invariant.ref name (List.mem_map_of_mem (Table.mem_of_lookup listed))
    · exact invariant.unknown
  · exact invariant.unknown

theorem ofForemost (invariant : ConversionInvariant names Q) {keywords : TsType} (holds : Q keywords) :
    Q (TsType.ofForemost names n.reference n.const n.enum keywords) := by
  unfold TsType.ofForemost
  split
  · exact invariant.ofReference _
  · exact invariant.ofJson _
  · exact invariant.union _ (List.forall_mem_map.mpr fun value _ => invariant.ofJson value)
  · exact holds

theorem ofTypeNames (invariant : ConversionInvariant names Q) {typeNames : List String} {aboutObjects aboutArrays : Bool}
    {arrays objects : TsType} (array : Q arrays) (object : Q objects) :
    Q (TsType.ofTypeNames typeNames aboutObjects aboutArrays arrays objects) := by
  unfold TsType.ofTypeNames
  split
  · split
    · exact object
    · split
      · exact array
      · exact invariant.unknown
  · refine invariant.union _ (List.forall_mem_map.mpr fun name _ => ?_)
    unfold ofTypeName
    split_ifs
    · exact invariant.primitive _
    · exact invariant.primitive _
    · exact invariant.primitive _
    · exact invariant.primitive _
    · exact array
    · exact object
    · exact invariant.unknown

theorem ofElements (invariant : ConversionInvariant names Q) {later : Option TsType} {items : Option (Items Schema)}
    (each : ∀ s ∈ NodeOf.elements items, Q (ofSchema names s)) (others : ∀ element ∈ later, Q element) :
    Q (TsType.ofElements names later items) := by
  rcases items with - | (schemas | schema)
  · rw [TsType.ofElements]
    exact invariant.array _ invariant.unknown
  · rw [TsType.ofElements, ofList_eq]
    exact invariant.tuple _ _ (List.forall_mem_map.mpr each) others
  · rw [TsType.ofElements]
    exact invariant.array _ (each schema (List.mem_singleton_self schema))

theorem ofLater (invariant : ConversionInvariant names Q)
    (each : ∀ s ∈ n.additionalItems.toList, Q (ofSchema names s)) :
    ∀ element ∈ TsType.ofLater names n.additionalItems, Q element := by
  intro element given
  unfold TsType.ofLater at given
  split at given
  · cases given
    exact invariant.unknown
  · cases given
  · rename_i schema there
    cases given
    exact each _ (by rw [there]; exact List.mem_singleton_self _)

theorem ofListed {make : List TsType → TsType} {slot : Option (Slot (List Schema))}
    (made : ∀ types : List TsType, (∀ type ∈ types, Q type) → Q (make types))
    (each : ∀ s ∈ NodeOf.listed slot, Q (ofSchema names s)) : ∀ type ∈ TsType.ofListed names make slot, Q type := by
  intro type member
  rcases slot with - | (schemas | value)
  · simp [TsType.ofListed] at member
  · rw [TsType.ofListed, List.mem_singleton] at member
    rw [member, ofList_eq]
    exact made _ (List.forall_mem_map.mpr each)
  · simp [TsType.ofListed] at member

/-- Properties that are only required are of unknown type. -/
theorem properties (invariant : ConversionInvariant names Q)
    (each : ∀ s ∈ NodeOf.declared n.properties, Q (ofSchema names s)) :
    ∀ property ∈ ofDeclared names n.requiredNames n.properties ++
      undeclared (ofDeclared names n.requiredNames n.properties) n.requiredNames, Q property.type := by
  intro property member
  rcases List.mem_append.mp member with inside | added
  · rcases given : n.properties with - | (table | value)
    · simp [given, ofDeclared] at inside
    · rw [given, ofDeclared] at inside
      obtain ⟨entry, listed, -, type, -⟩ := mem_ofTable inside
      rw [type]
      refine each entry.2 ?_
      rw [given]
      exact List.mem_map_of_mem listed
    · simp [given, ofDeclared] at inside
  · rw [(mem_undeclared added).2]
    exact invariant.unknown

theorem ofProperties (invariant : ConversionInvariant names Q) {declared : List Property} {required : List String}
    {others : Others} (each : ∀ property ∈ declared ++ undeclared declared required, Q property.type)
    (typed : ∀ type, others = .typed type → Q type) : Q (TsType.ofProperties declared required others) := by
  have whole := invariant.object _ each
  unfold TsType.ofProperties
  split
  · exact invariant.record _ invariant.unknown
  · exact invariant.record _ invariant.never
  · exact invariant.record _ (typed _ rfl)
  · exact invariant.both _ _ whole (invariant.record _ (typed _ rfl))
  · exact whole

theorem ofOthers (each : ∀ s ∈ n.additionalProperties.toList, Q (ofSchema names s)) (type : TsType)
    (typed : TsType.ofOthers names n.additionalProperties = .typed type) : Q type := by
  unfold TsType.ofOthers at typed
  split at typed
  · cases typed
  · cases typed
  · rename_i given
    cases typed
    exact each _ (by rw [given]; exact List.mem_singleton_self _)

/-- The conversion keeps the invariant. -/
theorem ofSchema (invariant : ConversionInvariant names Q) (schema : Schema) : Q (TsType.ofSchema names schema) := by
  induction schema using Schema.lowering_pure.induction with
  | bool value =>
    cases value with
    | true =>
      rw [TsType.ofSchema]
      exact invariant.unknown
    | false =>
      rw [TsType.ofSchema]
      exact invariant.never
  | malformed value =>
    rw [TsType.ofSchema]
    exact invariant.unknown
  | node n ih =>
    rw [Noted.pure_value, NodeOf.subschemas_auxiliary, NodeOf.subschemas_keywords] at ih
    simp only [List.forall_mem_append] at ih
    obtain ⟨⟨⟨⟨⟨⟨⟨⟨⟨⟨properties, items⟩, others⟩, allOf⟩, anyOf⟩, oneOf⟩, -⟩, -⟩, -⟩, -⟩, -, later⟩ := ih
    rw [ofSchema_node]
    refine invariant.ofForemost (invariant.intersection _ ?_)
    simp only [List.forall_mem_cons, List.forall_mem_append]
    refine ⟨invariant.ofTypeNames ?_ ?_, ⟨?_, ?_⟩, ?_⟩
    · exact invariant.ofElements items (invariant.ofLater later)
    · exact invariant.ofProperties (invariant.properties properties) (ofOthers others)
    · exact ofListed invariant.intersection allOf
    · exact ofListed invariant.union anyOf
    · exact ofListed invariant.union oneOf

end ConversionInvariant

end TsType

end Schemata
