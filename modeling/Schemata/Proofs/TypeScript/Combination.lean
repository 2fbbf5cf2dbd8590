import Mathlib.Data.Set.Lattice
import Schemata.Proofs.TypeScript.Sameness

namespace Schemata

namespace TsType

/-- A kind of combination: its members are what it was joined from, any other type is its own only part, and its bounds are
`unknown` and `never`, which are no combinations. -/
structure Combines (absorbing neutral : TsType) (join : List TsType → TsType) (parts : TsType → List TsType) : Prop where
  injective : Function.Injective join
  splits : ∀ type, (∃ members, type = join members ∧ parts type = members) ∨
    (∀ members, type ≠ join members) ∧ parts type = [type]
  apart : ∀ members, join members ≠ absorbing ∧ join members ≠ neutral
  bounds : ∀ type, type.same absorbing = false ∧ type.same neutral = false ↔ type ≠ unknown ∧ type ≠ never

theorem same_primitive_iff {type : TsType} {kind : Primitive} : type.same (.primitive kind) ↔ type = .primitive kind := by
  cases type <;> simp [same]

theorem bounds_union (type : TsType) :
    type.same unknown = false ∧ type.same never = false ↔ type ≠ unknown ∧ type ≠ never := by
  rw [← Bool.not_eq_true, ← Bool.not_eq_true, unknown, never, same_primitive_iff, same_primitive_iff]

theorem combines_union : Combines unknown never .union unionMembers where
  injective _ _ same := by injection same
  splits type := by cases type <;> simp [unionMembers]
  apart members := by simp [unknown, never]
  bounds := bounds_union

theorem combines_intersection : Combines never unknown .intersection intersectionMembers where
  injective _ _ same := by injection same
  splits type := by cases type <;> simp [intersectionMembers]
  apart members := by simp [unknown, never]
  bounds type := And.comm.trans (bounds_union type)

variable {absorbing neutral : TsType} {join : List TsType → TsType} {parts : TsType → List TsType} {types : List TsType}

/-- What collecting keeps: no two of the types are the same, and none is one of the bounds. -/
structure Collected (absorbing neutral : TsType) (collected : List TsType) : Prop where
  distinct : collected.Pairwise fun a b => a.same b = false
  proper : ∀ type ∈ collected, type.same absorbing = false ∧ type.same neutral = false

theorem Collected.concat {collected : List TsType} {type : TsType} (kept : Collected absorbing neutral collected)
    (proper : type.same absorbing = false ∧ type.same neutral = false) (fresh : collected.any type.same = false) :
    Collected absorbing neutral (collected ++ [type]) where
  distinct := by
    refine List.pairwise_append.mpr ⟨kept.distinct, List.pairwise_singleton _ _, fun earlier listed => ?_⟩
    refine List.forall_mem_singleton.mpr (Bool.eq_false_iff.mpr fun same => ?_)
    exact List.any_eq_false.mp fresh earlier listed (same_symm same)
  proper := List.forall_mem_append.mpr ⟨kept.proper, List.forall_mem_singleton.mpr proper⟩

/-- The types that are collected are all among the given ones. -/
theorem Collected.collect {collected members : List TsType} (kept : Collected absorbing neutral collected)
    (found : collect absorbing neutral collected types = some members) :
    Collected absorbing neutral members ∧ members ⊆ collected ++ types := by
  induction types generalizing collected with
  | nil =>
    rw [TsType.collect] at found
    cases found
    exact ⟨kept, List.subset_append_left _ _⟩
  | cons type rest ih =>
    rw [TsType.collect] at found
    by_cases whole : type.same absorbing
    · rw [if_pos whole] at found
      cases found
    · rw [if_neg whole] at found
      by_cases dropped : type.same neutral || collected.any type.same
      · rw [if_pos dropped] at found
        obtain ⟨done, inside⟩ := ih kept found
        refine ⟨done, List.Subset.trans inside (List.append_subset.mpr ⟨List.subset_append_left _ _, ?_⟩)⟩
        exact List.subset_append_of_subset_right _ (List.subset_cons_self _ _)
      · rw [if_neg dropped] at found
        rw [Bool.not_eq_true, Bool.or_eq_false_iff] at dropped
        rw [List.append_cons]
        exact ih (kept.concat ⟨Bool.eq_false_iff.mpr whole, dropped.1⟩ dropped.2) found

/-- One type for collected members: the absorbing one, the neutral one, the only member, or two members and more. -/
theorem joined_collect_cases {whole : TsType}
    (given : joined absorbing neutral join (collect absorbing neutral [] types) = whole) :
    whole = absorbing ∨ whole = neutral ∨ whole ∈ types ∨ ∃ members, 2 ≤ members.length ∧
      Collected absorbing neutral members ∧ members ⊆ types ∧ whole = join members := by
  have start : Collected absorbing neutral [] := ⟨.nil, fun type none => absurd none List.not_mem_nil⟩
  cases found : collect absorbing neutral [] types with
  | none =>
    rw [found] at given
    exact Or.inl given.symm
  | some members =>
    rw [found] at given
    obtain ⟨collected, inside⟩ := start.collect found
    rcases members with - | ⟨first, - | ⟨second, rest⟩⟩
    · exact Or.inr (Or.inl given.symm)
    · exact Or.inr (Or.inr (Or.inl (given ▸ inside (List.mem_singleton_self first))))
    · exact Or.inr (Or.inr (Or.inr ⟨_, by simp, collected, inside, given.symm⟩))

section

variable {Q : TsType → Prop}

/-- Collecting keeps whether some type has a property that same types share: a repeated type has its first occurrence,
the neutral type never has the property, and the absorbing type always has it. -/
theorem collect_iff (respects : ∀ a b : TsType, a.same b → (Q a ↔ Q b)) (absorbs : Q absorbing) (vanishes : ¬ Q neutral)
    (collected types : List TsType) :
    (∃ type ∈ collected ++ types, Q type) ↔
      ∀ members, collect absorbing neutral collected types = some members → ∃ type ∈ members, Q type := by
  induction types generalizing collected with
  | nil => simp [collect]
  | cons type rest ih =>
    by_cases whole : type.same absorbing
    · have present : Q type := (respects type absorbing whole).mpr absorbs
      rw [collect, if_pos whole]
      simp only [List.mem_append, List.mem_cons, reduceCtorEq, false_implies, implies_true, iff_true]
      exact ⟨type, Or.inr (Or.inl rfl), present⟩
    · rw [collect, if_neg whole]
      by_cases dropped : type.same neutral || collected.any type.same
      · rw [if_pos dropped, ← ih]
        simp only [Bool.or_eq_true, List.any_eq_true] at dropped
        constructor
        · rintro ⟨t, member, holds⟩
          rcases List.mem_append.mp member with before | later
          · exact ⟨t, List.mem_append_left _ before, holds⟩
          · rcases List.mem_cons.mp later with rfl | after
            · rcases dropped with empty | ⟨first, kept, same⟩
              · exact absurd ((respects t neutral empty).mp holds) vanishes
              · exact ⟨first, List.mem_append_left _ kept, (respects t first same).mp holds⟩
            · exact ⟨t, List.mem_append_right _ after, holds⟩
        · rintro ⟨t, member, holds⟩
          rcases List.mem_append.mp member with before | later
          · exact ⟨t, List.mem_append_left _ before, holds⟩
          · exact ⟨t, List.mem_append_right _ (List.mem_cons_of_mem _ later), holds⟩
      · rw [if_neg dropped, ← ih, List.append_assoc, List.singleton_append]

theorem joined_iff (absorbs : Q absorbing) (vanishes : ¬ Q neutral)
    (joins : ∀ members, Q (join members) ↔ ∃ type ∈ members, Q type) (collected : Option (List TsType)) :
    Q (joined absorbing neutral join collected) ↔ ∀ members, collected = some members → ∃ type ∈ members, Q type := by
  rcases collected with - | - | ⟨first, - | ⟨second, rest⟩⟩
  · simp [joined, absorbs]
  · simp [joined, vanishes]
  · simp [joined]
  · simp [joined, joins]

/-- Taking apart, collecting and joining keep whether some type has the property. -/
theorem Combines.exists_iff (combines : Combines absorbing neutral join parts)
    (respects : ∀ a b : TsType, a.same b → (Q a ↔ Q b)) (absorbs : Q absorbing) (vanishes : ¬ Q neutral)
    (joins : ∀ members, Q (join members) ↔ ∃ type ∈ members, Q type) (types : List TsType) :
    Q (joined absorbing neutral join (collect absorbing neutral [] (types.flatMap parts))) ↔ ∃ type ∈ types, Q type := by
  have flattens (type : TsType) : Q type ↔ ∃ part ∈ parts type, Q part := by
    rcases combines.splits type with ⟨members, rfl, same⟩ | ⟨-, same⟩
    · rw [same, joins]
    · simp [same]
  have flat : (∃ type ∈ types, Q type) ↔ ∃ part ∈ types.flatMap parts, Q part := by
    constructor
    · rintro ⟨type, member, holds⟩
      obtain ⟨part, inside, holds⟩ := (flattens type).mp holds
      exact ⟨part, List.mem_flatMap.mpr ⟨type, member, inside⟩, holds⟩
    · rintro ⟨part, member, holds⟩
      obtain ⟨type, listed, inside⟩ := List.mem_flatMap.mp member
      exact ⟨type, listed, (flattens type).mpr ⟨part, inside, holds⟩⟩
  rw [joined_iff absorbs vanishes joins, flat, ← collect_iff respects absorbs vanishes [], List.nil_append]

/-- They keep whether all types have the property: the result lacks it when some type lacks it. -/
theorem Combines.forall_iff (combines : Combines absorbing neutral join parts)
    (respects : ∀ a b : TsType, a.same b → (Q a ↔ Q b)) (absorbs : ¬ Q absorbing) (vanishes : Q neutral)
    (joins : ∀ members, Q (join members) ↔ ∀ type ∈ members, Q type) (types : List TsType) :
    Q (joined absorbing neutral join (collect absorbing neutral [] (types.flatMap parts))) ↔ ∀ type ∈ types, Q type := by
  have lacks := combines.exists_iff (Q := fun type => ¬ Q type) (fun a b same => not_congr (respects a b same)) absorbs
    (not_not_intro vanishes) (fun members => by rw [joins]; simp) types
  simpa using not_congr lacks

end

/-- A reading of types as sets of values, from the values of their parts. Literals that are the same have the same
values. -/
structure Denotation (V : Type) where
  primitive : Primitive → Set V
  literal : Literal → Set V
  array : Set V → Set V
  tuple : List (Set V) → Option (Set V) → Set V
  object : List (PropertyOf (Set V)) → Set V
  record : Set V → Set V → Set V
  ref : String → Set V
  literal_of_same : ∀ {a b : Literal}, a.same b → literal a = literal b

namespace Denotation

variable {V : Type} (D : Denotation V)

mutual
/-- The values of a type. Every value is one of `unknown`, and none is one of `never`. -/
def values : TsType → Set V
  | .primitive .unknown => Set.univ
  | .primitive .never => ∅
  | .primitive kind => D.primitive kind
  | .literal value => D.literal value
  | .array element => D.array (values element)
  | .tuple items rest => D.tuple (valuesOfList items) (valuesOfOption rest)
  | .union members => (valuesOfList members).foldr (· ∪ ·) ∅
  | .intersection members => (valuesOfList members).foldr (· ∩ ·) Set.univ
  | .object properties => D.object (valuesOfProperties properties)
  | .record key value => D.record (values key) (values value)
  | .ref name => D.ref name

def valuesOfList : List TsType → List (Set V)
  | [] => []
  | type :: types => values type :: valuesOfList types

def valuesOfOption : Option TsType → Option (Set V)
  | none => none
  | some type => some (values type)

def valuesOfProperties : List (PropertyOf TsType) → List (PropertyOf (Set V))
  | [] => []
  | ⟨name, type, isOptional, doc⟩ :: properties => ⟨name, values type, isOptional, doc⟩ :: valuesOfProperties properties
end

theorem values_union (members : List TsType) : D.values (.union members) = ⋃ type ∈ members, D.values type := by
  rw [values]
  induction members with
  | nil => simp [valuesOfList]
  | cons type members ih => simp [valuesOfList, ih, Set.iUnion_or, Set.iUnion_union_distrib]

theorem values_intersection (members : List TsType) :
    D.values (.intersection members) = ⋂ type ∈ members, D.values type := by
  rw [values]
  induction members with
  | nil => simp [valuesOfList]
  | cons type members ih => simp [valuesOfList, ih, Set.iInter_or, Set.iInter_inter_distrib]

theorem valuesOfList_congr {as bs : List TsType} (each : List.Forall₂ (fun a b => D.values a = D.values b) as bs) :
    D.valuesOfList as = D.valuesOfList bs := by
  induction each with
  | nil => rfl
  | cons first _ ih => rw [valuesOfList, valuesOfList, first, ih]

theorem congruence_values : Congruence fun a b => D.values a = D.values b where
  primitive kind := rfl
  literal same := by simp only [values, D.literal_of_same same]
  array inside := by simp only [values, inside]
  tuple {items items' rest rest'} each others := by
    have later : D.valuesOfOption rest = D.valuesOfOption rest' := by
      cases others with
      | none => rfl
      | some inside => rw [valuesOfOption, valuesOfOption, inside]
    simp only [values, D.valuesOfList_congr each, later]
  union each := by simp only [values, D.valuesOfList_congr each]
  intersection each := by simp only [values, D.valuesOfList_congr each]
  object {properties properties'} each := by
    have alike : D.valuesOfProperties properties = D.valuesOfProperties properties' := by
      induction each with
      | nil => rfl
      | cons first _ ih => simp only [valuesOfProperties, first.name, first.type, first.isOptional, first.doc, ih]
    simp only [values, alike]
  record key value := by simp only [values, key, value]
  ref name := rfl

/-- Types that are the same have the same values. -/
theorem values_of_same {a b : TsType} (same : a.same b) : D.values a = D.values b :=
  D.congruence_values.of_same a b same

/-- The values of the union of types are those of all of them together. -/
theorem values_unionOf (types : List TsType) : D.values (unionOf types) = ⋃ type ∈ types, D.values type := by
  ext v
  rw [Set.mem_iUnion₂]
  simp only [exists_prop]
  refine combines_union.exists_iff (Q := (v ∈ D.values ·)) (fun a b same => by rw [D.values_of_same same]) ?_ ?_ ?_ types
  · rw [unknown, values]
    exact Set.mem_univ v
  · rw [never, values]
    exact Set.notMem_empty v
  · intro members
    rw [values_union, Set.mem_iUnion₂]
    simp only [exists_prop]

/-- The values of the intersection of types are those that all of them have. -/
theorem values_intersectionOf (types : List TsType) :
    D.values (intersectionOf types) = ⋂ type ∈ types, D.values type := by
  ext v
  rw [Set.mem_iInter₂]
  refine combines_intersection.forall_iff (Q := (v ∈ D.values ·)) (fun a b same => by rw [D.values_of_same same]) ?_ ?_ ?_
    types
  · rw [never, values]
    exact Set.notMem_empty v
  · rw [unknown, values]
    exact Set.mem_univ v
  · intro members
    rw [values_intersection, Set.mem_iInter₂]

end Denotation

/-- No two of the types are the same, none is `unknown` or `never`, and none is a combination of the kind. -/
structure NormalMembers (join : List TsType → TsType) (members : List TsType) : Prop where
  distinct : members.Pairwise fun a b => a.same b = false
  proper : ∀ member ∈ members, member ≠ unknown ∧ member ≠ never
  flat : ∀ inner, join inner ∉ members

/-- If the type is a combination of the kind, it has two members at least, and they are in normal form. -/
def Normal (join : List TsType → TsType) (type : TsType) : Prop :=
  ∀ members, type = join members → 2 ≤ members.length ∧ NormalMembers join members

/-- What is taken apart has no combination of the kind in it when the combinations that were there have none. -/
theorem Combines.flat (combines : Combines absorbing neutral join parts)
    (each : ∀ type ∈ types, ∀ members, type = join members → ∀ inner, join inner ∉ members) (inner : List TsType) :
    join inner ∉ types.flatMap parts := by
  intro member
  obtain ⟨type, listed, inside⟩ := List.mem_flatMap.mp member
  rcases combines.splits type with ⟨members, whole, same⟩ | ⟨other, same⟩
  · rw [same] at inside
    exact each type listed members whole inner inside
  · rw [same, List.mem_singleton] at inside
    exact other inner inside.symm

theorem Combines.normal (combines : Combines absorbing neutral join parts) (each : ∀ type ∈ types, type.Normal join) :
    (joined absorbing neutral join (collect absorbing neutral [] (types.flatMap parts))).Normal join := by
  have flat := combines.flat fun type listed members whole => (each type listed members whole).2.flat
  intro members given
  obtain absorbed | vanished | single | ⟨found, two, collected, inside, same⟩ := joined_collect_cases given
  · exact absurd absorbed (combines.apart members).1
  · exact absurd vanished (combines.apart members).2
  · exact absurd single (flat members)
  · obtain rfl := combines.injective same
    have proper (member : TsType) (listed : member ∈ members) : member ≠ unknown ∧ member ≠ never :=
      (combines.bounds member).mp (collected.proper member listed)
    exact ⟨two, collected.distinct, proper, fun inner listed => flat inner (inside listed)⟩

end TsType

end Schemata
