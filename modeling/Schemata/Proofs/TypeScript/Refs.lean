import Schemata.Proofs.TypeScript.Conversion

namespace Schemata

namespace TsType

mutual
/-- The names that a type refers to. -/
def refs : TsType → List String
  | .primitive _ => []
  | .literal _ => []
  | .array element => element.refs
  | .tuple items rest => refsOf items ++ refsOfRest rest
  | .union members => refsOf members
  | .intersection members => refsOf members
  | .object properties => refsOfProperties properties
  | .record key value => key.refs ++ value.refs
  | .ref name => [name]

def refsOf : List TsType → List String
  | [] => []
  | type :: types => type.refs ++ refsOf types

def refsOfRest : Option TsType → List String
  | none => []
  | some type => type.refs

def refsOfProperties : List (PropertyOf TsType) → List String
  | [] => []
  | ⟨_, type, _, _⟩ :: properties => type.refs ++ refsOfProperties properties
end

theorem refsOf_eq (types : List TsType) : refsOf types = types.flatMap refs := by
  induction types with
  | nil => rfl
  | cons type types ih => rw [refsOf, ih, List.flatMap_cons]

theorem refsOfProperties_eq (properties : List Property) :
    refsOfProperties properties = refsOf (properties.map (·.type)) := by
  induction properties with
  | nil => rfl
  | cons property properties ih => rw [refsOfProperties, ih, List.map_cons, refsOf]

theorem refs_unknown (allowed : List String) : unknown.refs ⊆ allowed := by
  rw [unknown, refs]
  exact List.nil_subset allowed

theorem refs_never (allowed : List String) : never.refs ⊆ allowed := by
  rw [never, refs]
  exact List.nil_subset allowed

theorem refs_stringRecord (value : TsType) : (stringRecord value).refs = value.refs := by
  rw [stringRecord, refs, refs, List.nil_append]

/-- What the members have in common, the joined type has. -/
theorem joined_collect_induction {P : TsType → Prop} {absorbing neutral : TsType} {join : List TsType → TsType}
    {parts : TsType → List TsType} {types : List TsType} (absorbs : P absorbing) (vanishes : P neutral)
    (joins : ∀ members, (∀ type ∈ members, P type) → P (join members))
    (splits : ∀ type, P type → ∀ part ∈ parts type, P part) (each : ∀ type ∈ types, P type) :
    P (joined absorbing neutral join (collect absorbing neutral [] (types.flatMap parts))) := by
  have all : ∀ part ∈ types.flatMap parts, P part := by
    intro part member
    obtain ⟨whole, listed, inside⟩ := List.mem_flatMap.mp member
    exact splits whole (each whole listed) part inside
  generalize given : joined absorbing neutral join (collect absorbing neutral [] (types.flatMap parts)) = whole
  obtain rfl | rfl | single | ⟨members, -, -, inside, rfl⟩ := joined_collect_cases given
  · exact absorbs
  · exact vanishes
  · exact all _ single
  · exact joins members fun type member => all type (inside member)

variable {allowed : List String}

theorem refsOf_subset_iff {types : List TsType} : refsOf types ⊆ allowed ↔ ∀ type ∈ types, type.refs ⊆ allowed := by
  rw [refsOf_eq]
  constructor
  · exact fun all type member name inside => all (List.mem_flatMap.mpr ⟨type, member, inside⟩)
  · intro each name inside
    obtain ⟨type, member, there⟩ := List.mem_flatMap.mp inside
    exact each type member there

theorem refs_unionOf {types : List TsType} (each : ∀ type ∈ types, type.refs ⊆ allowed) :
    (unionOf types).refs ⊆ allowed := by
  refine joined_collect_induction (P := fun type => type.refs ⊆ allowed) (refs_unknown _) (refs_never _)
    (fun members all => ?_) (fun type whole part inside => ?_) each
  · rw [refs]
    exact refsOf_subset_iff.mpr all
  · cases type with
    | union members =>
      rw [refs] at whole
      exact refsOf_subset_iff.mp whole part inside
    | _ =>
      rw [List.mem_singleton.mp inside]
      exact whole

theorem refs_intersectionOf {types : List TsType} (each : ∀ type ∈ types, type.refs ⊆ allowed) :
    (intersectionOf types).refs ⊆ allowed := by
  refine joined_collect_induction (P := fun type => type.refs ⊆ allowed) (refs_never _) (refs_unknown _)
    (fun members all => ?_) (fun type whole part inside => ?_) each
  · rw [refs]
    exact refsOf_subset_iff.mpr all
  · cases type with
    | intersection members =>
      rw [refs] at whole
      exact refsOf_subset_iff.mp whole part inside
    | _ =>
      rw [List.mem_singleton.mp inside]
      exact whole

theorem refs_invariant (names : Table String) :
    ConversionInvariant names fun type => type.refs ⊆ names.map (·.2) where
  primitive _ := by
    rw [refs]
    exact List.nil_subset _
  literal _ _ := by
    rw [refs]
    exact List.nil_subset _
  ref name listed := by
    rw [refs]
    exact List.cons_subset.mpr ⟨listed, List.nil_subset _⟩
  array element inside := by rwa [refs]
  tuple items rest each others := by
    rw [refs]
    refine List.append_subset.mpr ⟨refsOf_subset_iff.mpr each, ?_⟩
    cases rest with
    | none => exact List.nil_subset _
    | some element => exact others element rfl
  object properties each := by
    rw [refs, refsOfProperties_eq, refsOf_subset_iff]
    exact List.forall_mem_map.mpr each
  record value inside := by rwa [refs_stringRecord]
  both properties value whole record := by
    rw [refs, refsOf_subset_iff]
    exact List.forall_mem_cons.mpr ⟨whole, List.forall_mem_singleton.mpr record⟩
  union _ := refs_unionOf
  intersection _ := refs_intersectionOf

end TsType

/-- The type of a schema refers only to names that the table gives to definitions. -/
theorem Schema.refs_ofSchema (names : Table String) (schema : Schema) :
    (TsType.ofSchema names schema).refs ⊆ names.map (·.2) :=
  (TsType.refs_invariant names).ofSchema schema

end Schemata
