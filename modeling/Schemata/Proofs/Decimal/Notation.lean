import Mathlib.Data.List.TakeWhile
import Schemata.Decimal.Extended
import Schemata.Proofs.Decimal.Shortest

namespace Schemata

/-- An integer is written with digits, after a sign when it is negative. -/
theorem toList_toString_int (n : Int) : (toString n).toList =
    if n < 0 then '-' :: Nat.toDigits 10 n.natAbs else Nat.toDigits 10 n.natAbs := by
  cases n with
  | ofNat n =>
    have text : toString (Int.ofNat n) = toString n := rfl
    have positive : ¬ Int.ofNat n < 0 := Int.not_lt.mpr (Int.natCast_nonneg n)
    rw [if_neg positive, text, Nat.toString_eq_ofList_toDigits, String.toList_ofList]
    rfl
  | negSucc n =>
    have text : toString (Int.negSucc n) = String.ofList ['-'] ++ toString (n + 1) := rfl
    rw [if_pos (Int.negSucc_lt_zero n), text, String.toList_append, Nat.toString_eq_ofList_toDigits, String.toList_ofList,
      String.toList_ofList]
    rfl

namespace Extended

theorem digitsValue_eq (digits : List Char) : digitsValue digits = Nat.ofDigitChars 10 digits 0 := by
  rw [Nat.ofDigitChars_eq_foldl, digitsValue]
  congr 1
  funext sofar c
  rw [Nat.mul_comm]
  rfl

end Extended

namespace Decimal

/-- Digits that write the decimal, with a point or without. -/
inductive Writes : List Char → Decimal → Prop
  | whole {digits : List Char} (some : digits ≠ []) (each : ∀ c ∈ digits, c.isDigit) :
      Writes digits ⟨Extended.digitsValue digits, 0⟩
  | fraction {whole fraction : List Char} (some : whole ≠ []) (each : ∀ c ∈ whole ++ fraction, c.isDigit) :
      Writes (whole ++ '.' :: fraction) ⟨Extended.digitsValue (whole ++ fraction), -fraction.length⟩

theorem isDigit_digitChars (d : Decimal) : ∀ c ∈ d.digitChars, c.isDigit :=
  fun _ member => Nat.isDigit_of_mem_toDigits (by decide) (by decide) member

theorem isDigit_zero : ∀ c ∈ ['0'], c.isDigit := List.forall_mem_singleton.mpr rfl

theorem isDigit_replicate_zero (n : ℕ) : ∀ c ∈ List.replicate n '0', c.isDigit := by
  intro c member
  rw [List.eq_of_mem_replicate member]
  decide

/-- The positional text writes the same number. -/
theorem positional_writes (d : Decimal) :
    ∃ written, Writes (d.positional false) written ∧ written.value = d.value ∧
      (written.exponent = 0 ∨ written.exponent = d.exponent) := by
  have digits := isDigit_digitChars d
  have value : Nat.ofDigitChars 10 d.digitChars 0 = d.digits := Nat.ofDigitChars_ten_toDigits
  unfold positional
  simp only [Bool.false_eq_true, if_false, List.append_nil]
  split_ifs with up none many
  · refine ⟨_, .whole (List.cons_ne_nil _ _) isDigit_zero, ?_, Or.inl rfl⟩
    rw [Decimal.value, Decimal.value, none]
    simp [Extended.digitsValue]
  · refine ⟨_, .whole ?_ (List.forall_mem_append.mpr ⟨digits, isDigit_replicate_zero _⟩), ?_, Or.inl rfl⟩
    · exact List.append_ne_nil_of_left_ne_nil Nat.toDigits_ne_nil _
    · obtain ⟨n, whole⟩ := Int.eq_ofNat_of_zero_le up
      rw [Extended.digitsValue_eq, Nat.ofDigitChars_append, Nat.ofDigitChars_replicate_zero, value, Decimal.value,
        Decimal.value, whole]
      simp [mul_comm]
  · have zeros : ∀ c ∈ ['0'] ++ (List.replicate ((-d.exponent).toNat - d.digitChars.length) '0' ++ d.digitChars),
        c.isDigit := by
      refine List.forall_mem_append.mpr ⟨isDigit_zero, List.forall_mem_append.mpr ⟨isDigit_replicate_zero _, digits⟩⟩
    have places : (List.replicate ((-d.exponent).toNat - d.digitChars.length) '0' ++ d.digitChars).length =
        (-d.exponent).toNat := by
      rw [List.length_append, List.length_replicate]
      omega
    have exponent : (-((-d.exponent).toNat : ℕ) : ℤ) = d.exponent := by omega
    refine ⟨_, .fraction (List.cons_ne_nil _ _) zeros, ?_, Or.inr ?_⟩
    · rw [places, exponent, Extended.digitsValue_eq, Nat.ofDigitChars_append, Nat.ofDigitChars_append,
        Nat.ofDigitChars_replicate_zero, Decimal.value, Decimal.value]
      simp [Nat.ofDigitChars_cons, value]
    · rw [places, exponent]
  · have whole := List.take_append_drop (d.digitChars.length - (-d.exponent).toNat) d.digitChars
    have places : (d.digitChars.drop (d.digitChars.length - (-d.exponent).toNat)).length = (-d.exponent).toNat := by
      rw [List.length_drop]
      omega
    have exponent : (-((-d.exponent).toNat : ℕ) : ℤ) = d.exponent := by omega
    have some : d.digitChars.take (d.digitChars.length - (-d.exponent).toNat) ≠ [] := by
      refine List.ne_nil_of_length_pos ?_
      rw [List.length_take]
      omega
    refine ⟨_, .fraction some (by rwa [whole]), ?_, Or.inr ?_⟩
    · rw [places, exponent, whole, Extended.digitsValue_eq, value]
    · rw [places, exponent]

theorem Writes.head {text : List Char} {d : Decimal} (writes : Writes text d) :
    ∃ c rest, text = c :: rest ∧ c.isDigit := by
  cases writes with
  | whole some each =>
    obtain ⟨c, rest, rfl⟩ := List.exists_cons_of_ne_nil some
    exact ⟨c, rest, rfl, each c List.mem_cons_self⟩
  | fraction some each =>
    obtain ⟨c, rest, rfl⟩ := List.exists_cons_of_ne_nil some
    exact ⟨c, _, rfl, each c List.mem_cons_self⟩

end Decimal

namespace Extended

/-- Digits are read as the decimal that they write. -/
theorem decimal?_of_writes {text : List Char} {d : Decimal} (writes : Decimal.Writes text d) (negative : Bool) :
    decimal? negative text = some (ofDecimal negative d.digits d.exponent) := by
  cases writes with
  | whole some each =>
    rw [decimal?, List.takeWhile_eq_self_iff.mpr each, List.dropWhile_eq_nil_iff.mpr each]
    simp [List.isEmpty_eq_false_iff.mpr some]
  | @fraction whole fraction some each =>
    obtain ⟨left, right⟩ := List.forall_mem_append.mp each
    rw [decimal?, List.takeWhile_append_of_pos left, List.dropWhile_append_of_pos left,
      List.takeWhile_cons_of_neg (by decide), List.dropWhile_cons_of_neg (by decide)]
    simp [List.isEmpty_eq_false_iff.mpr some, List.takeWhile_eq_self_iff.mpr right, List.dropWhile_eq_nil_iff.mpr right]

theorem lowerAscii_of_isDigit {c : Char} (digit : c.isDigit) : Text.lowerAscii c = c := by
  rw [Text.lowerAscii, if_neg]
  rintro ⟨capital, -⟩
  simp only [Char.isDigit, Bool.and_eq_true, decide_eq_true_eq] at digit
  have first : 65 ≤ c.toNat := UInt32.le_iff_toNat_le.mp (Char.le_def.mp capital)
  have last : c.toNat ≤ 57 := UInt32.le_iff_toNat_le.mp digit.2
  omega

/-- A digit is not the first letter of a word. -/
theorem unsigned?_of_writes {text : List Char} {d : Decimal} (writes : Decimal.Writes text d) (negative : Bool) :
    unsigned? negative text = some (ofDecimal negative d.digits d.exponent) := by
  obtain ⟨c, rest, rfl, digit⟩ := writes.head
  have same := lowerAscii_of_isDigit digit
  have differs (word : String) (letter : word.toList.head?.all (!·.isDigit)) :
      String.ofList ((c :: rest).map Text.lowerAscii) ≠ word := by
    rintro rfl
    rw [String.toList_ofList, List.map_cons, List.head?_cons, same] at letter
    simp [digit] at letter
  rw [unsigned?]
  simp only [differs "inf" (by decide), differs "infinity" (by decide),
    differs "nan" (by decide), decide_false, Bool.or_self, Bool.false_eq_true, if_false]
  exact decimal?_of_writes writes negative

/-- The plain text of a value is read as the value. -/
theorem ofText?_toPlainText (x : Binary64) : ofText? x.toPlainText = some (.finite x) := by
  obtain ⟨written, writes, same, exponent⟩ := Decimal.positional_writes (Decimal.shortest x)
  have bounds := Decimal.shortest_exponent_bounds x
  have read : Binary64.ofDecimal? x.negative written.digits written.exponent = some x :=
    Binary64.ofDecimal?_of_value same (by omega) (by omega)
  have value : unsigned? x.negative ((Decimal.shortest x).positional false) = some (.finite x) := by
    rw [unsigned?_of_writes writes, ofDecimal, read]
  obtain ⟨c, rest, text, digit⟩ := writes.head
  rw [text] at value
  rw [ofText?, Binary64.toPlainText, Binary64.signed, String.toList_ofList, text]
  cases sign : x.negative with
  | true =>
    rw [sign] at value
    exact value
  | false =>
    rw [sign] at value
    rw [if_neg (by decide)]
    split
    · rename_i minus
      cases minus
      exact absurd digit (by decide)
    · rename_i plus
      cases plus
      exact absurd digit (by decide)
    · exact value

end Extended

end Schemata
