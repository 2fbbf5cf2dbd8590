import Mathlib.Data.List.Forall2
import Mathlib.Data.Option.Basic
import Schemata.TypeScript.Type

namespace Schemata

theorem Binary64.sameNumber_symm {a b : Binary64} (same : a.sameNumber b) : b.sameNumber a := by
  simp only [Binary64.sameNumber, Bool.and_eq_true, Bool.or_eq_true, beq_iff_eq] at same ⊢
  obtain ⟨place, sign | zero⟩ := same
  · exact ⟨place.symm, Or.inl sign.symm⟩
  · exact ⟨place.symm, Or.inr (place.symm.trans zero)⟩

theorem Extended.sameNumber_symm {a b : Extended} (same : a.sameNumber b) : b.sameNumber a := by
  unfold Extended.sameNumber at same
  split at same
  · exact Binary64.sameNumber_symm same
  · rw [Extended.sameNumber, eq_of_beq same]
    exact beq_self_eq_true _
  · cases same

theorem Literal.same_symm {a b : Literal} (same : a.same b) : b.same a := by
  unfold Literal.same at same
  split at same
  · rw [Literal.same, eq_of_beq same]
    exact beq_self_eq_true _
  · rw [Literal.same, eq_of_beq same]
    exact beq_self_eq_true _
  · exact Extended.sameNumber_symm same
  · rw [Literal.same, eq_of_beq same]
    exact beq_self_eq_true _
  · rfl
  · cases same

namespace TsType

variable {R : TsType → TsType → Prop}

theorem sameList_iff {as bs : List TsType} : sameList as bs ↔ List.Forall₂ (fun a b => a.same b) as bs := by
  induction as generalizing bs with
  | nil => cases bs <;> simp [sameList]
  | cons a as ih => cases bs <;> simp [sameList, ih]

theorem sameOption_iff {a b : Option TsType} : sameOption a b ↔ Option.Rel (fun a b => a.same b) a b := by
  cases a <;> cases b <;> simp [sameOption]

/-- Properties with related types, and alike in all else. -/
structure PropertyRel (R : TsType → TsType → Prop) (a b : Property) : Prop where
  name : a.name = b.name
  type : R a.type b.type
  isOptional : a.isOptional = b.isOptional
  doc : a.doc = b.doc

theorem sameProperties_cons (a b : Property) (as bs : List Property) :
    sameProperties (a :: as) (b :: bs) = (a.name == b.name && a.type.same b.type && a.isOptional == b.isOptional
      && a.doc == b.doc && sameProperties as bs) := by
  rw [sameProperties]

theorem sameProperties_iff {as bs : List Property} :
    sameProperties as bs ↔ List.Forall₂ (PropertyRel fun a b => a.same b) as bs := by
  have property (a b : Property) : PropertyRel (fun a b => a.same b) a b ↔
      (((a.name = b.name ∧ a.type.same b.type) ∧ a.isOptional = b.isOptional) ∧ a.doc = b.doc) :=
    ⟨fun ⟨name, type, isOptional, doc⟩ => ⟨⟨⟨name, type⟩, isOptional⟩, doc⟩,
      fun ⟨⟨⟨name, type⟩, isOptional⟩, doc⟩ => ⟨name, type, isOptional, doc⟩⟩
  induction as generalizing bs with
  | nil => cases bs <;> simp [sameProperties]
  | cons a as ih => cases bs <;> simp [sameProperties_cons, sameProperties, ih, property]

/-- A relation that holds of the same literals, and of types with related parts. -/
structure Congruence (R : TsType → TsType → Prop) : Prop where
  primitive : ∀ kind, R (.primitive kind) (.primitive kind)
  literal : ∀ {a b : Literal}, a.same b → R (.literal a) (.literal b)
  array : ∀ {a b}, R a b → R (.array a) (.array b)
  tuple : ∀ {items items' rest rest'}, List.Forall₂ R items items' → Option.Rel R rest rest' →
    R (.tuple items rest) (.tuple items' rest')
  union : ∀ {members members'}, List.Forall₂ R members members' → R (.union members) (.union members')
  intersection : ∀ {members members'}, List.Forall₂ R members members' →
    R (.intersection members) (.intersection members')
  object : ∀ {properties properties'}, List.Forall₂ (PropertyRel R) properties properties' →
    R (.object properties) (.object properties')
  record : ∀ {key key' value value'}, R key key' → R value value' → R (.record key value) (.record key' value')
  ref : ∀ name, R (.ref name) (.ref name)

theorem sizeOf_type_lt (a : Property) (as : List Property) : sizeOf a.type < sizeOf (a :: as) := by
  cases a
  simp only [List.cons.sizeOf_spec, PropertyOf.mk.sizeOf_spec]
  omega

mutual
/-- A congruence relates types that are the same. -/
theorem Congruence.of_same (congruence : Congruence R) (a b : TsType) (same : a.same b) : R a b := by
  unfold TsType.same at same
  split at same
  · rw [eq_of_beq same]
    exact congruence.primitive _
  · exact congruence.literal same
  · exact congruence.array (of_same congruence _ _ same)
  · obtain ⟨items, rest⟩ := Bool.and_eq_true_iff.mp same
    exact congruence.tuple (of_sameList congruence _ _ items) (of_sameOption congruence _ _ rest)
  · exact congruence.union (of_sameList congruence _ _ same)
  · exact congruence.intersection (of_sameList congruence _ _ same)
  · exact congruence.object (of_sameProperties congruence _ _ same)
  · obtain ⟨key, value⟩ := Bool.and_eq_true_iff.mp same
    exact congruence.record (of_same congruence _ _ key) (of_same congruence _ _ value)
  · rw [eq_of_beq same]
    exact congruence.ref _
  · cases same
termination_by sizeOf a

theorem Congruence.of_sameList (congruence : Congruence R) (as bs : List TsType) (same : sameList as bs) :
    List.Forall₂ R as bs := by
  cases sameList_iff.mp same with
  | nil => exact .nil
  | @cons a b as bs first others =>
    exact .cons (of_same congruence a b first) (of_sameList congruence as bs (sameList_iff.mpr others))
termination_by sizeOf as

theorem Congruence.of_sameOption (congruence : Congruence R) (a b : Option TsType) (same : sameOption a b) :
    Option.Rel R a b := by
  cases sameOption_iff.mp same with
  | none => exact .none
  | @some a b inside => exact .some (of_same congruence a b inside)
termination_by sizeOf a

theorem Congruence.of_sameProperties (congruence : Congruence R) (as bs : List Property) (same : sameProperties as bs) :
    List.Forall₂ (PropertyRel R) as bs := by
  cases sameProperties_iff.mp same with
  | nil => exact .nil
  | @cons a b as bs first others =>
    have smaller := sizeOf_type_lt a as
    exact .cons ⟨first.name, of_same congruence a.type b.type first.type, first.isOptional, first.doc⟩
      (of_sameProperties congruence as bs (sameProperties_iff.mpr others))
termination_by sizeOf as
end

theorem sameList_flip {as bs : List TsType} (each : List.Forall₂ (fun a b => b.same a) as bs) : sameList bs as :=
  sameList_iff.mpr each.flip

theorem congruence_flip : Congruence fun a b => b.same a where
  primitive kind := by simp [TsType.same]
  literal same := by
    rw [TsType.same]
    exact Literal.same_symm same
  array inside := by rwa [TsType.same]
  tuple items rest := by
    rw [TsType.same, Bool.and_eq_true]
    refine ⟨sameList_flip items, sameOption_iff.mpr ?_⟩
    cases rest with
    | none => exact .none
    | some inside => exact .some inside
  union each := by
    rw [TsType.same]
    exact sameList_flip each
  intersection each := by
    rw [TsType.same]
    exact sameList_flip each
  object each := by
    rw [TsType.same, sameProperties_iff]
    exact each.flip.imp fun a b property =>
      ⟨property.name.symm, property.type, property.isOptional.symm, property.doc.symm⟩
  record key value := by
    rw [TsType.same, Bool.and_eq_true]
    exact ⟨key, value⟩
  ref name := by simp [TsType.same]

/-- Being the same is symmetric. It is not reflexive: not-a-number is not the same as itself. -/
theorem same_symm {a b : TsType} (same : a.same b) : b.same a :=
  congruence_flip.of_same a b same

end TsType

end Schemata
