import Schemata.Proofs.TypeScript.Conversion
import Schemata.Proofs.TypeScript.Grammar
import Schemata.Proofs.TypeScript.Identifier
import Schemata.Proofs.TypeScript.Reference

namespace Schemata

namespace TsText

theorem isLower_upperAscii (c : Char) : (Text.upperAscii c).isLower = false := by
  have capital : ∀ place < 26, (Char.ofNat (65 + place)).isLower = false := by decide
  unfold Text.upperAscii
  split
  · rename_i lower
    have first : 97 ≤ c.toNat := UInt32.le_iff_toNat_le.mp (Char.le_def.mp lower.1)
    have last : c.toNat ≤ 122 := UInt32.le_iff_toNat_le.mp (Char.le_def.mp lower.2)
    rw [show c.toNat - 32 = 65 + (c.toNat - 97) by omega]
    exact capital (c.toNat - 97) (by omega)
  · rename_i other
    rw [Bool.eq_false_iff]
    intro lower
    obtain ⟨first, last⟩ := Bool.and_eq_true_iff.mp lower
    exact other ⟨Char.le_def.mpr (of_decide_eq_true first), Char.le_def.mpr (of_decide_eq_true last)⟩

/-- An identifier does not start with a small letter. -/
theorem head_identifier (name : String) : ∀ c ∈ (identifier name).toList.head?, c.isLower = false := by
  have head (pieces : List (List Char)) : ∀ c ∈ (pieces.flatMap Text.capitalized).head?, c.isLower = false := by
    induction pieces with
    | nil => exact fun c none => by cases none
    | cons piece pieces ih =>
      cases piece with
      | nil => exact ih
      | cons d rest =>
        intro c first
        rw [List.flatMap_cons, Text.capitalized, List.cons_append, List.head?_cons, Option.mem_some_iff] at first
        rw [← first]
        exact isLower_upperAscii d
  have letters := head (Text.pieces (fun c => !inIdentifier c) name.toList)
  unfold identifier
  generalize (Text.pieces (fun c => !inIdentifier c) name.toList).flatMap Text.capitalized = text at letters ⊢
  cases text with
  | nil =>
    intro c first
    cases first
    rfl
  | cons c rest =>
    rw [String.toList_ofList]
    split
    · exact fun d first => by
        cases first
        decide
    · exact letters

end TsText

namespace Binding

/-- The name of a type is never a keyword. -/
theorem typeNames_legible (names : List String) :
    ∀ name ∈ (table names).map (·.2.typeName), TsText.isIdentifier name ∧ name ∉ TsGrammar.keywords := by
  have listed : ∀ name ∈ (table names).map (·.2.typeName), name ∈
      ((NameAllocator.reserving reservedTypes).allocateAll (names.map TsText.identifier)).1 := by
    intro name member
    obtain ⟨entry, inside, same⟩ := List.mem_map.mp member
    rw [← typeNames_allocate _ (.reserving reservedValues), ← same]
    rcases Table.mem_insertAll inside with none | given
    · cases none
    · exact List.mem_map_of_mem given
  have named := NameAllocator.allocateAll_named (.reserving reservedTypes) (names.map TsText.identifier)
  have gives := NameAllocator.allocateAll_gives (.reserving reservedTypes) (names.map TsText.identifier)
  have capital : ∀ name ∈ ((NameAllocator.reserving reservedTypes).allocateAll (names.map TsText.identifier)).1,
      TsText.isIdentifier name ∧ ∀ c ∈ name.toList.head?, c.isLower = false := by
    refine named.forall_mem (fun base holds number => ⟨TsText.isIdentifier_append_number holds.1 number, ?_⟩)
      (List.forall_mem_map.mpr fun name _ => ⟨TsText.isIdentifier_identifier name, TsText.head_identifier name⟩)
    obtain ⟨c, rest, letters, -, -⟩ := TsText.isIdentifier_iff.mp holds.1
    rw [String.toList_append, letters]
    rw [letters] at holds
    exact holds.2
  intro name member
  obtain ⟨valid, letter⟩ := capital name (listed name member)
  refine ⟨valid, fun keyword => ?_⟩
  have free : name ≠ "Record" := by
    rintro rfl
    exact gives.free _ (listed _ member) (by decide)
  have small : TsGrammar.keywords.all fun word => word == "Record" || word.toList.head?.any Char.isLower := by decide
  have lower := List.all_eq_true.mp small name keyword
  rw [beq_eq_false_iff_ne.mpr free, Bool.false_or, Option.any_eq_true] at lower
  obtain ⟨c, first, lower⟩ := lower
  rw [letter c first] at lower
  cases lower

end Binding

namespace TsType

/-- The types that a type is made of. -/
def children : TsType → List TsType
  | .array element => [element]
  | .tuple items rest => items ++ rest.toList
  | .union members => members
  | .intersection members => members
  | .object properties => properties.map (·.type)
  | .record key value => [key, value]
  | _ => []

/-- The property holds of the type and of every type in it. -/
inductive Everywhere (P : TsType → Prop) : TsType → Prop
  | intro {type : TsType} (here : P type) (inside : ∀ child ∈ type.children, Everywhere P child) : Everywhere P type

theorem Everywhere.here {P : TsType → Prop} {type : TsType} (every : type.Everywhere P) : P type := by
  cases every
  assumption

theorem Everywhere.child {P : TsType → Prop} {type : TsType} (every : type.Everywhere P) :
    ∀ child ∈ type.children, child.Everywhere P := by
  cases every
  assumption

/-- What the text of a type needs to be read back; of the members of an intersection only unions are put in
parentheses. -/
def Legible : TsType → Prop
  | .literal value => value.Finite
  | .union members => 2 ≤ members.length ∧ ∀ member ∈ members, member.isUnion = false
  | .intersection members => 2 ≤ members.length ∧ ∀ member ∈ members, member.isCombination = member.isUnion
  | .ref name => TsText.isIdentifier name ∧ name ∉ TsGrammar.keywords
  | _ => True

theorem everywhere_primitive (kind : Primitive) : (primitive kind).Everywhere Legible :=
  .intro trivial fun _ none => absurd none List.not_mem_nil

section

variable {P : TsType → Prop} {absorbing neutral : TsType} {join : List TsType → TsType} {parts : TsType → List TsType}
  {types : List TsType}

/-- What holds everywhere in the types holds everywhere in their parts. -/
theorem Combines.everywhere_parts (combines : Combines absorbing neutral join parts)
    (children : ∀ members, (join members).children = members) (each : ∀ type ∈ types, type.Everywhere P) :
    ∀ part ∈ types.flatMap parts, part.Everywhere P := by
  intro part member
  obtain ⟨type, listed, inside⟩ := List.mem_flatMap.mp member
  rcases combines.splits type with ⟨members, rfl, same⟩ | ⟨-, same⟩
  · rw [same] at inside
    exact (each _ listed).child part (by rwa [children])
  · rw [same, List.mem_singleton] at inside
    exact inside ▸ each type listed

/-- What holds of a combination and everywhere in the types it is made of holds everywhere in it. -/
theorem Combines.everywhere (combines : Combines absorbing neutral join parts)
    (children : ∀ members, (join members).children = members) (absorbs : absorbing.Everywhere P)
    (vanishes : neutral.Everywhere P) (each : ∀ type ∈ types, type.Everywhere P)
    (here : P (joined absorbing neutral join (collect absorbing neutral [] (types.flatMap parts)))) :
    (joined absorbing neutral join (collect absorbing neutral [] (types.flatMap parts))).Everywhere P := by
  have inner := combines.everywhere_parts children each
  generalize given : joined _ _ _ _ = whole at here ⊢
  obtain rfl | rfl | single | ⟨members, -, -, inside, rfl⟩ := joined_collect_cases given
  · exact absorbs
  · exact vanishes
  · exact inner whole single
  · exact .intro here fun child listed => inner child (inside (by rwa [children] at listed))

end

theorem legible_unionOf {types : List TsType} (each : ∀ type ∈ types, type.Everywhere Legible) :
    (unionOf types).Legible := by
  have flat := combines_union.flat fun type listed members whole inner inside => by
    have apart := (whole ▸ each type listed).here.2 _ inside
    cases apart
  unfold unionOf
  generalize given : joined _ _ _ _ = whole
  obtain rfl | rfl | single | ⟨members, two, -, inside, rfl⟩ := joined_collect_cases given
  · trivial
  · trivial
  · exact (combines_union.everywhere_parts (fun _ => rfl) each whole single).here
  · refine ⟨two, fun member listed => ?_⟩
    cases member with
    | union inner => exact absurd (inside listed) (flat inner)
    | _ => rfl

theorem legible_intersectionOf {types : List TsType} (each : ∀ type ∈ types, type.Everywhere Legible) :
    (intersectionOf types).Legible := by
  have flat := combines_intersection.flat fun type listed members whole inner inside => by
    have apart := (whole ▸ each type listed).here.2 _ inside
    cases apart
  unfold intersectionOf
  generalize given : joined _ _ _ _ = whole
  obtain rfl | rfl | single | ⟨members, two, -, inside, rfl⟩ := joined_collect_cases given
  · trivial
  · trivial
  · exact (combines_intersection.everywhere_parts (fun _ => rfl) each whole single).here
  · refine ⟨two, fun member listed => ?_⟩
    cases member with
    | intersection inner => exact absurd (inside listed) (flat inner)
    | _ => rfl

theorem everywhere_unionOf {types : List TsType} (each : ∀ type ∈ types, type.Everywhere Legible) :
    (unionOf types).Everywhere Legible :=
  combines_union.everywhere (fun _ => rfl) (everywhere_primitive .unknown) (everywhere_primitive .never) each
    (legible_unionOf each)

theorem everywhere_intersectionOf {types : List TsType} (each : ∀ type ∈ types, type.Everywhere Legible) :
    (intersectionOf types).Everywhere Legible :=
  combines_intersection.everywhere (fun _ => rfl) (everywhere_primitive .never) (everywhere_primitive .unknown) each
    (legible_intersectionOf each)

theorem legible_invariant {names : Table String}
    (valid : ∀ name ∈ names.map (·.2), TsText.isIdentifier name ∧ name ∉ TsGrammar.keywords) :
    ConversionInvariant names fun type => type.Everywhere Legible where
  primitive := everywhere_primitive
  literal _ finite := .intro finite fun _ none => absurd none List.not_mem_nil
  ref name listed := .intro (valid name listed) fun _ none => absurd none List.not_mem_nil
  array _ every := .intro trivial (List.forall_mem_singleton.mpr every)
  tuple _ _ each others :=
    .intro trivial (List.forall_mem_append.mpr ⟨each, fun element given => others element (Option.mem_toList.mp given)⟩)
  object _ each := .intro trivial (List.forall_mem_map.mpr each)
  record _ every :=
    .intro trivial (List.forall_mem_cons.mpr ⟨everywhere_primitive .string, List.forall_mem_singleton.mpr every⟩)
  both _ _ whole record :=
    .intro ⟨Nat.le_refl 2, List.forall_mem_cons.mpr ⟨rfl, List.forall_mem_singleton.mpr rfl⟩⟩
      (List.forall_mem_cons.mpr ⟨whole, List.forall_mem_singleton.mpr record⟩)
  union _ := everywhere_unionOf
  intersection _ := everywhere_intersectionOf

theorem legible_ofJson (value : Json) : (ofJson value).Everywhere Legible := by
  have invariant : ConversionInvariant [] fun type => type.Everywhere Legible :=
    legible_invariant fun _ none => absurd none List.not_mem_nil
  exact invariant.ofJson value

theorem legible_ofSchema (set : SchemaSet) (schema : Schema) : (ofSchema set.typeNames schema).Everywhere Legible := by
  refine (legible_invariant ?_).ofSchema schema
  have names : set.typeNames.map (·.2) = (Binding.table (Table.keys set.definitions)).map (·.2.typeName) := by
    rw [SchemaSet.typeNames, Table.mapValues, List.map_map]
    rfl
  rw [names]
  exact Binding.typeNames_legible _

end TsType

end Schemata
