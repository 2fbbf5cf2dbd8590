import Schemata.Json.Basic
import Schemata.Proofs.TypeScript.Combination

namespace Schemata

/-- The number is the one that the integer and the denominator write. -/
def Literal.Holds : Literal → Json → Prop
  | .string value, x => x = .string value
  | .int value, x => ∃ number, x = .number number ∧ value * number.exact.2 = number.exact.1
  | .number (.finite value), x => ∃ number, x = .number number ∧ (Number.float value).equal number
  | .number _, _ => False
  | .bool value, x => x = .bool value
  | .null, x => x = .null

def Primitive.Holds : Primitive → Json → Prop
  | .string, x => ∃ value, x = .string value
  | .number, x => ∃ value, x = .number value
  | .boolean, x => ∃ value, x = .bool value
  | .null, x => x = .null
  | .unknown, _ => True
  | .never, _ => False

/-- The sign of a zero does not count. -/
theorem Number.exact_of_sameNumber {a b : Binary64} (same : a.sameNumber b) :
    (Number.float a).exact = (Number.float b).exact := by
  obtain ⟨negative, place, finite⟩ := a
  obtain ⟨negative', place', finite'⟩ := b
  simp only [Binary64.sameNumber, Bool.and_eq_true, Bool.or_eq_true, beq_iff_eq] at same
  obtain ⟨rfl, rfl | rfl⟩ := same
  · rfl
  · have zero (negative : Bool) (finite : 0 < Binary64.limit) : (Binary64.mk negative 0 finite).ratio.1 = 0 := by
      unfold Binary64.ratio
      split <;> simp [Binary64.significand]
    have denominator : (Binary64.mk negative 0 finite).ratio.2 = (Binary64.mk negative' 0 finite').ratio.2 := rfl
    simp only [Number.exact, zero, denominator]
    cases negative <;> cases negative' <;> rfl

theorem Literal.holds_of_same {a b : Literal} (same : a.same b) (x : Json) : a.Holds x ↔ b.Holds x := by
  unfold Literal.same at same
  split at same
  · rw [eq_of_beq same]
  · rw [eq_of_beq same]
  · rename_i a b
    cases a with
    | finite a =>
      cases b with
      | finite b =>
        have exact := Number.exact_of_sameNumber same
        simp only [Literal.Holds, Number.equal, exact]
      | infinite negative => cases same
      | nan => cases same
    | infinite negative => cases b <;> simp [Literal.Holds, Extended.sameNumber] at same ⊢
    | nan => cases b <;> cases same
  · rw [eq_of_beq same]
  · exact Iff.rfl
  · cases same

namespace TsType

section

variable (env : String → Json → Prop)

mutual
/-- The value inhabits the type, where names are read by the assignment. -/
def Inhabits : TsType → Json → Prop
  | .primitive kind, x => kind.Holds x
  | .literal value, x => value.Holds x
  | .array element, x => ∃ values, x = .array values ∧ ∀ value ∈ values, Inhabits element value
  | .tuple items rest, x => ∃ values, x = .array values ∧ InhabitPositions items (InhabitRest rest) values
  | .union members, x => InhabitsSome members x
  | .intersection members, x => InhabitsAll members x
  | .object properties, x => ∃ fields, x = .object fields ∧ InhabitProperties properties fields
  | .record key value, x =>
    ∃ fields, x = .object fields ∧ ∀ field ∈ fields, Inhabits key (.string field.1) ∧ Inhabits value field.2
  | .ref name, x => env name x

/-- Every type has its value, and what is left over is as `rest` asks. -/
def InhabitPositions : List TsType → (List Json → Prop) → List Json → Prop
  | [], rest, values => rest values
  | _ :: _, _, [] => False
  | type :: types, rest, value :: values => Inhabits type value ∧ InhabitPositions types rest values

/-- The values past the listed positions. -/
def InhabitRest : Option TsType → List Json → Prop
  | none, values => values = []
  | some type, values => ∀ value ∈ values, Inhabits type value

def InhabitsSome : List TsType → Json → Prop
  | [], _ => False
  | type :: types, x => Inhabits type x ∨ InhabitsSome types x

def InhabitsAll : List TsType → Json → Prop
  | [], _ => True
  | type :: types, x => Inhabits type x ∧ InhabitsAll types x

/-- Every property is present unless it is optional, and has a value of its type. -/
def InhabitProperties : List (PropertyOf TsType) → Table Json → Prop
  | [], _ => True
  | ⟨name, type, isOptional, _⟩ :: properties, fields =>
    ((isOptional = false → Table.has fields name) ∧ ∀ value, fields.lookup name = some value → Inhabits type value) ∧
      InhabitProperties properties fields
end

variable {env} {x : Json}

theorem inhabitsSome_iff {types : List TsType} : InhabitsSome env types x ↔ ∃ type ∈ types, type.Inhabits env x := by
  induction types with
  | nil => simp [InhabitsSome]
  | cons type types ih => simp [InhabitsSome, ih]

theorem inhabitsAll_iff {types : List TsType} : InhabitsAll env types x ↔ ∀ type ∈ types, type.Inhabits env x := by
  induction types with
  | nil => simp [InhabitsAll]
  | cons type types ih => simp [InhabitsAll, ih]

theorem inhabitProperties_iff {properties : List Property} {fields : Table Json} :
    InhabitProperties env properties fields ↔ ∀ property ∈ properties,
      (property.isOptional = false → Table.has fields property.name) ∧
        ∀ value, fields.lookup property.name = some value → property.type.Inhabits env value := by
  induction properties with
  | nil => simp [InhabitProperties]
  | cons property properties ih => simp [InhabitProperties, ih]

@[simp] theorem inhabits_unknown : unknown.Inhabits env x := by
  simp [unknown, Inhabits, Primitive.Holds]

@[simp] theorem not_inhabits_never : ¬ never.Inhabits env x := by
  simp [never, Inhabits, Primitive.Holds]

theorem inhabits_union {members : List TsType} : (TsType.union members).Inhabits env x ↔ ∃ type ∈ members, type.Inhabits env x := by
  rw [Inhabits, inhabitsSome_iff]

theorem inhabits_intersection {members : List TsType} :
    (TsType.intersection members).Inhabits env x ↔ ∀ type ∈ members, type.Inhabits env x := by
  rw [Inhabits, inhabitsAll_iff]

theorem inhabits_object {properties : List Property} :
    (TsType.object properties).Inhabits env x ↔ ∃ fields, x = .object fields ∧ ∀ property ∈ properties,
      (property.isOptional = false → Table.has fields property.name) ∧
        ∀ value, fields.lookup property.name = some value → property.type.Inhabits env value := by
  simp only [Inhabits, inhabitProperties_iff]

theorem inhabits_stringRecord {value : TsType} :
    (stringRecord value).Inhabits env x ↔ ∃ fields, x = .object fields ∧ ∀ field ∈ fields, value.Inhabits env field.2 := by
  simp [stringRecord, Inhabits, Primitive.Holds]

theorem inhabitProperties_cons (a : Property) (as : List Property) (fields : Table Json) :
    InhabitProperties env (a :: as) fields ↔
      ((a.isOptional = false → Table.has fields a.name) ∧
        ∀ value, fields.lookup a.name = some value → a.type.Inhabits env value) ∧ InhabitProperties env as fields := by
  rw [InhabitProperties]

/-- The relation of having the same values. -/
theorem congruence_inhabits : Congruence fun a b => ∀ x, a.Inhabits env x ↔ b.Inhabits env x where
  primitive kind x := Iff.rfl
  literal same x := by
    simp only [Inhabits]
    exact Literal.holds_of_same same x
  array inside x := by simp only [Inhabits, inside]
  tuple {items items' rest rest'} each others x := by
    have positions (later : List Json → Prop) (values : List Json) :
        InhabitPositions env items later values ↔ InhabitPositions env items' later values := by
      induction each generalizing values with
      | nil => exact Iff.rfl
      | cons first _ ih =>
        cases values with
        | nil => exact Iff.rfl
        | cons value values => simp only [InhabitPositions, first, ih]
    have later (values : List Json) : InhabitRest env rest values ↔ InhabitRest env rest' values := by
      cases others with
      | none => exact Iff.rfl
      | some inside => simp only [InhabitRest, inside]
    simp only [Inhabits, positions, funext fun values => propext (later values)]
  union each x := by
    simp only [Inhabits]
    induction each with
    | nil => exact Iff.rfl
    | cons first _ ih => simp only [InhabitsSome, first, ih]
  intersection each x := by
    simp only [Inhabits]
    induction each with
    | nil => exact Iff.rfl
    | cons first _ ih => simp only [InhabitsAll, first, ih]
  object {properties properties'} each x := by
    have alike (fields : Table Json) : InhabitProperties env properties fields ↔ InhabitProperties env properties' fields := by
      induction each with
      | nil => exact Iff.rfl
      | cons first _ ih => simp only [inhabitProperties_cons, first.name, first.type, first.isOptional, ih]
    simp only [Inhabits, alike]
  record key value x := by simp only [Inhabits, key, value]
  ref name x := Iff.rfl

/-- The same types have the same values. -/
theorem inhabits_of_same (a b : TsType) (same : a.same b) (x : Json) : a.Inhabits env x ↔ b.Inhabits env x :=
  congruence_inhabits.of_same a b same x

variable (env) in
/-- The values of a union are those of its members. -/
theorem inhabits_unionOf (types : List TsType) (x : Json) :
    (unionOf types).Inhabits env x ↔ ∃ type ∈ types, type.Inhabits env x :=
  combines_union.exists_iff (Q := (Inhabits env · x)) (fun a b same => inhabits_of_same a b same x) inhabits_unknown
    not_inhabits_never (fun _ => inhabits_union) types

variable (env) in
/-- The values of an intersection are those that its members share. -/
theorem inhabits_intersectionOf (types : List TsType) (x : Json) :
    (intersectionOf types).Inhabits env x ↔ ∀ type ∈ types, type.Inhabits env x :=
  combines_intersection.forall_iff (Q := (Inhabits env · x)) (fun a b same => inhabits_of_same a b same x)
    not_inhabits_never inhabits_unknown (fun _ => inhabits_intersection) types

end

end TsType

end Schemata
