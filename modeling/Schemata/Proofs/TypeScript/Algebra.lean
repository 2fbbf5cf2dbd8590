import Schemata.Proofs.TypeScript.Legible

namespace Schemata

/-- Not-a-number, which is not the same as itself, is not finite. -/
theorem Literal.same_self {value : Literal} (finite : value.Finite) : value.same value := by
  cases value with
  | number value =>
    obtain ⟨number, rfl⟩ := finite
    simp [Literal.same, Extended.sameNumber, Binary64.sameNumber]
  | _ => simp [Literal.same]

namespace TsType

/-- As a union or an intersection the type is in normal form. It is the same as itself, so types that are not the same are
different. -/
structure Tidy (type : TsType) : Prop where
  union : type.Normal .union
  intersection : type.Normal .intersection
  self : type.same type

/-- What is no combination is of no kind of them. -/
theorem normal_of_single {type : TsType} (single : type.isCombination = false) :
    type.Normal .union ∧ type.Normal .intersection := by
  constructor
  · rintro members rfl
    cases single
  · rintro members rfl
    cases single

theorem Tidy.of_single {type : TsType} (single : type.isCombination = false) (self : type.same type) : type.Tidy where
  union := (normal_of_single single).1
  intersection := (normal_of_single single).2
  self := self

variable {types : List TsType}

theorem sameList_self (each : ∀ type ∈ types, type.Everywhere Tidy) : sameList types types :=
  sameList_iff.mpr (List.forall₂_same.mpr fun type listed => (each type listed).here.self)

theorem tidy_primitive (kind : Primitive) : (primitive kind).Everywhere Tidy :=
  .intro (.of_single rfl (same_primitive_iff.mpr rfl)) fun _ none => absurd none List.not_mem_nil

/-- Combining keeps types tidy when what is joined in normal form is tidy. -/
theorem Combines.tidy {absorbing neutral : TsType} {join : List TsType → TsType} {parts : TsType → List TsType}
    (combines : Combines absorbing neutral join parts) (children : ∀ members, (join members).children = members)
    (absorbs : absorbing.Everywhere Tidy) (vanishes : neutral.Everywhere Tidy)
    (joins : ∀ members, (join members).Normal join → sameList members members → (join members).Tidy)
    (each : ∀ type ∈ types, type.Everywhere Tidy) (normal : ∀ type ∈ types, type.Normal join) :
    (joined absorbing neutral join (collect absorbing neutral [] (types.flatMap parts))).Everywhere Tidy := by
  have inner := combines.everywhere_parts children each
  have whole := combines.normal normal
  refine combines.everywhere children absorbs vanishes each ?_
  generalize given : joined _ _ _ _ = result at whole ⊢
  obtain rfl | rfl | single | ⟨members, -, -, inside, rfl⟩ := joined_collect_cases given
  · exact absorbs.here
  · exact vanishes.here
  · exact (inner result single).here
  · exact joins members whole (sameList_self fun member listed => inner member (inside listed))

theorem tidy_unionOf (each : ∀ type ∈ types, type.Everywhere Tidy) : (unionOf types).Everywhere Tidy := by
  refine combines_union.tidy (fun _ => rfl) (tidy_primitive _) (tidy_primitive _) (fun members normal self => ?_) each
    fun type listed => (each type listed).here.union
  exact ⟨normal, fun others other => (by cases other), by rwa [same]⟩

theorem tidy_intersectionOf (each : ∀ type ∈ types, type.Everywhere Tidy) : (intersectionOf types).Everywhere Tidy := by
  refine combines_intersection.tidy (fun _ => rfl) (tidy_primitive _) (tidy_primitive _) (fun members normal self => ?_)
    each fun type listed => (each type listed).here.intersection
  exact ⟨fun others other => (by cases other), normal, by rwa [same]⟩

/-- An object type and a record are members in normal form, though nothing collected them. -/
theorem normal_both (properties : List Property) (value : TsType) :
    (intersection [.object properties, stringRecord value]).Normal .intersection := by
  intro members given
  cases given
  refine ⟨Nat.le_refl 2, ?_, ?_, ?_⟩
  · simp [stringRecord, same]
  · simp [stringRecord, unknown, never]
  · simp [stringRecord]

theorem tidy_invariant (names : Table String) : ConversionInvariant names fun type => type.Everywhere Tidy where
  primitive := tidy_primitive
  literal value finite := by
    have self := Literal.same_self finite
    exact .intro (.of_single rfl (by rwa [same])) fun _ none => absurd none List.not_mem_nil
  ref name _ := .intro (.of_single rfl (by simp [same])) fun _ none => absurd none List.not_mem_nil
  array element every := by
    have self := every.here.self
    exact .intro (.of_single rfl (by rwa [same])) (List.forall_mem_singleton.mpr every)
  tuple items rest each others := by
    have inside : sameList items items := sameList_self each
    have later : sameOption rest rest := by
      rw [sameOption_iff]
      cases rest with
      | none => exact .none
      | some element => exact .some (others element rfl).here.self
    refine .intro (.of_single rfl (by rw [same, inside, later, Bool.and_self])) ?_
    exact List.forall_mem_append.mpr ⟨each, fun element given => others element (Option.mem_toList.mp given)⟩
  object properties each := by
    have self : sameProperties properties properties :=
      sameProperties_iff.mpr (List.forall₂_same.mpr fun property listed => ⟨rfl, (each property listed).here.self, rfl, rfl⟩)
    exact .intro (.of_single rfl (by rwa [same])) (List.forall_mem_map.mpr each)
  record value every := by
    have self := every.here.self
    refine .intro (.of_single rfl (by simp [stringRecord, same, self])) ?_
    exact List.forall_mem_cons.mpr ⟨tidy_primitive .string, List.forall_mem_singleton.mpr every⟩
  both properties value whole record := by
    have each := List.forall_mem_cons.mpr ⟨whole, List.forall_mem_singleton.mpr record⟩
    have self := sameList_self each
    exact .intro ⟨fun others other => (by cases other), normal_both properties value, by rwa [same]⟩ each
  union _ := tidy_unionOf
  intersection _ := tidy_intersectionOf

/-- Under every reading of the other types, a union has the values of all its types together and an intersection those
that its types share. Both are a single type of another kind or a combination of two members at least in normal form, when
combinations of the kind among the types are. So is every union and every intersection in the type of a schema, and there
every type is the same as itself: its members are different. -/
theorem combinations_exact {V : Type} (D : Denotation V) (types : List TsType) (names : Table String) (schema : Schema) :
    D.values (unionOf types) = (⋃ type ∈ types, D.values type) ∧
    D.values (intersectionOf types) = (⋂ type ∈ types, D.values type) ∧
    ((∀ type ∈ types, type.Normal .union) → (unionOf types).Normal .union) ∧
    ((∀ type ∈ types, type.Normal .intersection) → (intersectionOf types).Normal .intersection) ∧
    (ofSchema names schema).Everywhere Tidy := by
  refine ⟨D.values_unionOf types, D.values_intersectionOf types, fun each => ?_, fun each => ?_, ?_⟩
  · exact combines_union.normal each
  · exact combines_intersection.normal each
  · exact (tidy_invariant names).ofSchema schema

/-- Each kind of combination inside the other, and a name that both have. -/
theorem combinations_exact_nested :
    let types := [TsType.union [.ref "A", .ref "B"], .intersection [.ref "A", .ref "C"], .ref "A"]
    ((∀ type ∈ types, type.Normal .union) ∧ ∀ type ∈ types, type.Normal .intersection) ∧
      ((unionOf types).Normal .union ∧ (intersectionOf types).Normal .intersection) ∧
      unionOf types = .union [.ref "A", .ref "B", .intersection [.ref "A", .ref "C"]] ∧
      intersectionOf types = .intersection [.union [.ref "A", .ref "B"], .ref "A", .ref "C"] := by
  intro types
  have name : (ref "A").Normal .union ∧ (ref "A").Normal .intersection := normal_of_single rfl
  have unions : ∀ type ∈ types, type.Normal .union := by
    have inner : (union [.ref "A", .ref "B"]).Normal .union := by
      intro members given
      cases given
      exact ⟨Nat.le_refl 2, by simp [same], by simp [unknown, never], by simp⟩
    have other : (intersection [.ref "A", .ref "C"]).Normal .union := by
      intro members given
      cases given
    exact List.forall_mem_cons.mpr ⟨inner, List.forall_mem_cons.mpr ⟨other, List.forall_mem_singleton.mpr name.1⟩⟩
  have intersections : ∀ type ∈ types, type.Normal .intersection := by
    have other : (union [.ref "A", .ref "B"]).Normal .intersection := by
      intro members given
      cases given
    have inner : (intersection [.ref "A", .ref "C"]).Normal .intersection := by
      intro members given
      cases given
      exact ⟨Nat.le_refl 2, by simp [same], by simp [unknown, never], by simp⟩
    exact List.forall_mem_cons.mpr ⟨other, List.forall_mem_cons.mpr ⟨inner, List.forall_mem_singleton.mpr name.2⟩⟩
  let names : Denotation String :=
    { primitive := fun _ => ∅, literal := fun _ => ∅, array := id, tuple := fun _ _ => ∅, object := fun _ => ∅,
      record := fun _ value => value, ref := fun name => {name}, literal_of_same := fun _ => rfl }
  obtain ⟨-, -, union, intersection, -⟩ := combinations_exact names types [] (.bool true)
  refine ⟨⟨unions, intersections⟩, ⟨union unions, intersection intersections⟩, ?_, ?_⟩
  · simp [types, unionOf, unionMembers, collect, joined, same, unknown, never]
  · simp [types, intersectionOf, intersectionMembers, collect, joined, same, unknown, never]

end TsType

end Schemata
