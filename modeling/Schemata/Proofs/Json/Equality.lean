import Schemata.Json.Kind

namespace Schemata

namespace Number

theorem exact_pos (n : Number) : 0 < n.exact.2 := by
  cases n with
  | int value inRange => exact Nat.one_pos
  | float value =>
    simp only [exact, Binary64.ratio]
    split
    · exact Nat.one_pos
    · exact Nat.two_pow_pos _

/-- A number has no fraction when the denominator of its exact value divides the numerator. -/
theorem isWhole_iff (n : Number) : n.isWhole ↔ (n.exact.2 : Int) ∣ n.exact.1 := by
  cases n with
  | int value inRange => simp [isWhole, toInt?, exact]
  | float value =>
    have whole : value.toInt?.isSome ↔ value.ratio.2 ∣ value.ratio.1 := by
      simp only [Binary64.toInt?]
      split
      · rename_i divides
        simp [Nat.dvd_of_mod_eq_zero divides]
      · rename_i remainder
        simp [Nat.dvd_iff_mod_eq_zero, remainder]
    simp only [isWhole, toInt?, exact, whole]
    split <;> simp [Int.natCast_dvd_natCast]

/-- Equal numbers are both without a fraction or neither is. -/
theorem isWhole_of_equal {a b : Number} (same : a.equal b) (whole : a.isWhole) : b.isWhole := by
  rw [isWhole_iff] at whole ⊢
  obtain ⟨k, value⟩ := whole
  have positive : (a.exact.2 : Int) ≠ 0 := by
    have := a.exact_pos
    omega
  have products : a.exact.1 * b.exact.2 = b.exact.1 * a.exact.2 := by simpa [equal] using same
  refine ⟨k, ?_⟩
  apply Int.eq_of_mul_eq_mul_right positive
  rw [← products, value, Int.mul_assoc, Int.mul_comm, Int.mul_comm k]

end Number

namespace Json

/-- A value that equals another has the narrowest type of the other. -/
theorem hasType_of_equal {value x : Json} (same : value.equal x) : x.hasType value.tag := by
  cases value with
  | number a =>
    cases x with
    | number b =>
      by_cases whole : a.isWhole
      · have bothWhole := Number.isWhole_of_equal (by simpa only [equal] using same) whole
        simp [hasType, tag, whole, bothWhole]
      · by_cases wholeToo : b.isWhole <;> simp [hasType, tag, whole, wholeToo]
    | _ => simp [equal] at same
  | _ =>
    cases x <;> simp [equal] at same
    rfl

end Json

end Schemata
