import Schemata.Proofs.Json.Equality
import Schemata.Proofs.TypeScript.Inhabitation
import Schemata.TypeScript.Convert

namespace Schemata

namespace Number

theorem equal_trans {a b c : Number} (first : a.equal b) (second : b.equal c) : a.equal c := by
  simp only [equal, beq_iff_eq] at first second ⊢
  have positive : (b.exact.2 : Int) ≠ 0 := by
    have := b.exact_pos
    omega
  apply Int.eq_of_mul_eq_mul_right positive
  calc a.exact.1 * c.exact.2 * b.exact.2
      = a.exact.1 * b.exact.2 * c.exact.2 := by rw [Int.mul_assoc, Int.mul_assoc, Int.mul_comm (c.exact.2 : Int)]
    _ = b.exact.1 * c.exact.2 * a.exact.2 := by
      rw [first, Int.mul_assoc, Int.mul_assoc, Int.mul_comm (a.exact.2 : Int)]
    _ = c.exact.1 * a.exact.2 * b.exact.2 := by
      rw [second, Int.mul_assoc, Int.mul_assoc, Int.mul_comm (b.exact.2 : Int)]

/-- The literal of the number is not rounded: large integers have to be floating-point numbers, too. -/
def HasLiteral : Number → Prop
  | .int value inRange =>
    value < 0x8000000000000000 ∨
      ∃ nearest, Binary64.ofInt? value = some nearest ∧ (Number.float nearest).equal (.int value inRange)
  | .float _ => True

theorem holds_ofNumber {n m : Number} (literal : n.HasLiteral) (same : n.equal m) :
    (Literal.ofNumber n).Holds (.number m) := by
  cases n with
  | float value => exact ⟨m, rfl, same⟩
  | int value inRange =>
    by_cases small : value < 0x8000000000000000
    · rw [Literal.ofNumber, if_pos small]
      refine ⟨m, rfl, ?_⟩
      simpa [equal, exact] using same
    · obtain ⟨nearest, found, agrees⟩ := literal.resolve_left small
      rw [Literal.ofNumber, if_neg small, found, Option.getD_some]
      exact ⟨m, rfl, equal_trans agrees same⟩

end Number

namespace Json

mutual
/-- Every number in the value has its literal. -/
def HasLiteral : Json → Prop
  | .number n => n.HasLiteral
  | .array items => ItemsHaveLiterals items
  | .object fields => FieldsHaveLiterals fields
  | _ => True

def ItemsHaveLiterals : List Json → Prop
  | [] => True
  | value :: rest => value.HasLiteral ∧ ItemsHaveLiterals rest

def FieldsHaveLiterals : List (String × Json) → Prop
  | [] => True
  | (_, value) :: rest => value.HasLiteral ∧ FieldsHaveLiterals rest
end

end Json

namespace TsType

variable {env : String → Json → Prop}

mutual
/-- What equals a value inhabits the type of the value. -/
theorem inhabits_ofJson (value : Json) (literal : value.HasLiteral) (x : Json) (same : value.equal x) :
    (ofJson value).Inhabits env x := by
  cases value with
  | null =>
    cases x <;> simp [Json.equal] at same
    simp [ofJson, Inhabits, Literal.Holds]
  | bool value =>
    cases x <;> simp [Json.equal] at same
    simp [ofJson, Inhabits, Literal.Holds, same]
  | string value =>
    cases x <;> simp [Json.equal] at same
    simp [ofJson, Inhabits, Literal.Holds, same]
  | number n =>
    cases x with
    | number m =>
      simp only [Json.equal] at same
      rw [ofJson, Inhabits]
      exact Number.holds_ofNumber literal same
    | _ => simp [Json.equal] at same
  | array items =>
    cases x with
    | array values =>
      simp only [Json.equal] at same
      rw [ofJson, Inhabits]
      exact ⟨values, rfl, inhabitPositions_ofItems items literal values same⟩
    | _ => simp [Json.equal] at same
  | object fields =>
    cases x with
    | object others =>
      simp only [Json.equal, Bool.and_eq_true] at same
      rw [ofJson, Inhabits]
      exact ⟨others, rfl, inhabitProperties_ofFields fields literal others same.2⟩
    | _ => simp [Json.equal] at same
termination_by sizeOf value

theorem inhabitPositions_ofItems (items : List Json) (literal : Json.ItemsHaveLiterals items) (values : List Json)
    (same : Json.equalItems items values) : InhabitPositions env (ofItems items) (InhabitRest env none) values := by
  cases items with
  | nil =>
    cases values with
    | nil => simp [ofItems, InhabitPositions, InhabitRest]
    | cons value values => simp [Json.equalItems] at same
  | cons item items =>
    cases values with
    | nil => simp [Json.equalItems] at same
    | cons value values =>
      simp only [Json.equalItems, Bool.and_eq_true] at same
      rw [ofItems, InhabitPositions]
      exact ⟨inhabits_ofJson item literal.1 value same.1, inhabitPositions_ofItems items literal.2 values same.2⟩
termination_by sizeOf items

theorem inhabitProperties_ofFields (fields : List (String × Json)) (literal : Json.FieldsHaveLiterals fields)
    (others : Table Json) (same : Json.equalFields fields others) :
    InhabitProperties env (ofFields fields) others := by
  match fields with
  | [] => simp [ofFields, InhabitProperties]
  | (name, value) :: rest =>
    simp only [Json.equalFields, Bool.and_eq_true] at same
    obtain ⟨partner, further⟩ := same
    cases found : others.lookup name with
    | none => simp [found] at partner
    | some other =>
      simp only [found] at partner
      rw [ofFields, InhabitProperties]
      refine ⟨⟨fun _ => ?_, fun given looked => ?_⟩, inhabitProperties_ofFields rest literal.2 others further⟩
      · rw [Table.has, found, Option.isSome_some]
      · cases found.symm.trans looked
        exact inhabits_ofJson value literal.1 other partner
termination_by sizeOf fields
end

end TsType

end Schemata
