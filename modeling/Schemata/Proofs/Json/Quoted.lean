import Mathlib.Tactic.IntervalCases
import Mathlib.Tactic.SplitIfs
import Schemata.Json.Printer
import Schemata.Json.Reader

namespace Schemata

namespace Json

/-- A control character is read back from its four hexadecimal digits. -/
theorem readEscape_control {c : Char} (control : c.toNat < 32) (rest : List Char) :
    readEscape ('u' :: '0' :: '0' :: hexDigit (c.toNat / 16) :: hexDigit c.toNat :: rest) = .ok (c, rest) := by
  have each : ∀ n < 32, ∀ rest, readEscape ('u' :: '0' :: '0' :: hexDigit (n / 16) :: hexDigit n :: rest) =
      .ok (Char.ofNat n, rest) := by
    intro n small rest
    interval_cases n <;> rfl
  rw [each c.toNat control, Char.ofNat_toNat]

/-- The reader takes a written character as a whole. -/
theorem readChars_escapeChar (fuel : Nat) (soFar : List Char) (c : Char) (rest : List Char) :
    readChars (fuel + 1) soFar (escapeChar c ++ rest) = readChars fuel (c :: soFar) rest := by
  unfold escapeChar
  split_ifs with quote backslash line carriage tab back feed control
  · subst quote
    rfl
  · subst backslash
    rfl
  · subst line
    rfl
  · subst carriage
    rfl
  · subst tab
    rfl
  · subst back
    rfl
  · subst feed
    rfl
  · simp only [List.cons_append, List.nil_append]
    rw [readChars, if_neg (by decide), if_pos rfl, readEscape_control control]
  · rw [List.singleton_append, readChars, if_neg quote, if_neg backslash, if_neg control]

theorem readChars_flatMap_escapeChar (chars soFar rest : List Char) {fuel : Nat} (enough : chars.length < fuel) :
    readChars fuel soFar (chars.flatMap escapeChar ++ '"' :: rest) =
      .ok (String.ofList (soFar.reverse ++ chars), rest) := by
  induction chars generalizing fuel soFar with
  | nil =>
    obtain ⟨fuel, rfl⟩ := Nat.exists_eq_add_of_lt enough
    rw [List.append_nil]
    rfl
  | cons c chars ih =>
    rw [List.length_cons] at enough
    obtain ⟨fuel, rfl⟩ : ∃ more, fuel = more + 1 := ⟨fuel - 1, by omega⟩
    rw [List.flatMap_cons, List.append_assoc, readChars_escapeChar, ih _ (by omega), List.reverse_cons,
      List.append_assoc, List.singleton_append]

theorem length_le_length_flatMap_escapeChar (chars : List Char) : chars.length ≤ (chars.flatMap escapeChar).length := by
  induction chars with
  | nil => exact Nat.le_refl 0
  | cons c chars ih =>
    have some : 1 ≤ (escapeChar c).length := by
      unfold escapeChar
      split_ifs <;> simp
    rw [List.flatMap_cons, List.length_append, List.length_cons]
    omega

/-- A text in quotes is read back, whatever is in it and whatever follows. -/
theorem readString_quoted (text : String) (rest : List Char) :
    readString (text.toList.flatMap escapeChar ++ '"' :: rest) = .ok (text, rest) := by
  have long := length_le_length_flatMap_escapeChar text.toList
  rw [readString, readChars_flatMap_escapeChar _ _ _ (by rw [List.length_append]; omega), List.reverse_nil,
    List.nil_append, String.ofList_toList]

end Json

end Schemata
