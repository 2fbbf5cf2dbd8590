import Schemata.Proofs.Decimal.Notation
import Schemata.Proofs.Json.Pointer
import Schemata.Proofs.Json.Scaling

namespace Schemata

namespace Number

open Binary64

/-- What follows does not go on with a number. -/
def Ends (rest : List Char) : Prop := ∀ c ∈ rest.head?, c.isDigit = false ∧ c ≠ '.' ∧ c ≠ 'e' ∧ c ≠ 'E'

section

variable {digits rest : List Char}

theorem span_digits (each : ∀ c ∈ digits, c.isDigit) (stop : ∀ c ∈ rest.head?, c.isDigit = false) :
    (digits ++ rest).takeWhile Char.isDigit = digits ∧ (digits ++ rest).dropWhile Char.isDigit = rest := by
  rw [List.takeWhile_append_of_pos each, List.dropWhile_append_of_pos each]
  cases rest with
  | nil => simp
  | cons c rest =>
    have last := stop c rfl
    rw [List.takeWhile_cons_of_neg (by simp [last]), List.dropWhile_cons_of_neg (by simp [last]), List.append_nil]
    exact ⟨rfl, rfl⟩

theorem le_ofDigitChars (digits : List Char) (start : ℕ) :
    10 ^ digits.length * start ≤ Nat.ofDigitChars 10 digits start := by
  rw [Nat.ofDigitChars_eq_ofDigitChars_zero]
  exact Nat.le_add_right _ _

theorem start_le_ofDigitChars (digits : List Char) (start : ℕ) : start ≤ Nat.ofDigitChars 10 digits start :=
  (Nat.le_mul_of_pos_left start (Nat.pow_pos (by norm_num))).trans (le_ofDigitChars digits start)

/-- The reader appends a digit as the digits are counted. -/
theorem append_digit (start : ℕ) (c : Char) : start * 10 + digitValue c = 10 * start + (c.toNat - '0'.toNat) := by
  rw [Nat.mul_comm, digitValue]

theorem ofDigitChars_lt (each : ∀ c ∈ digits, c.isDigit) (start : ℕ) :
    Nat.ofDigitChars 10 digits start < (start + 1) * 10 ^ digits.length := by
  induction digits generalizing start with
  | nil => simp
  | cons c rest ih =>
    have digit := (Char.isDigit_iff_toNat.mp (each c List.mem_cons_self)).2
    have step := ih (fun c member => each c (List.mem_cons_of_mem _ member)) (10 * start + (c.toNat - '0'.toNat))
    rw [Nat.ofDigitChars_cons, List.length_cons, Nat.pow_succ']
    refine step.trans_le ?_
    rw [← Nat.mul_assoc]
    refine Nat.mul_le_mul_right _ ?_
    have nine : '9'.toNat = 57 := rfl
    have zero : '0'.toNat = 48 := rfl
    omega

/-- What is taken in of the digits behind a start: a number that fits, with as many digits left over as it lacks. Of a
number that fits nothing is left over. -/
structure Absorbs (start : ℕ) (digits : List Char) (outcome : ℕ × ℕ × ℕ) : Prop where
  small : outcome.1 < 2 ^ 64
  length : outcome.2.1 + outcome.2.2 = digits.length
  below : outcome.1 * 10 ^ outcome.2.2 ≤ Nat.ofDigitChars 10 digits start
  all : Nat.ofDigitChars 10 digits start < 2 ^ 64 →
    outcome.1 = Nat.ofDigitChars 10 digits start ∧ outcome.2.2 = 0

theorem absorb_absorbs (digits : List Char) {start : ℕ} (small : start < 2 ^ 64) :
    Absorbs start digits (absorb start digits) := by
  induction digits generalizing start with
  | nil => exact ⟨small, rfl, by simp [absorb], fun _ => ⟨rfl, rfl⟩⟩
  | cons c rest ih =>
    rw [absorb]
    simp only [append_digit]
    split_ifs with fits
    · have further := ih fits
      generalize absorb (10 * start + (c.toNat - '0'.toNat)) rest = outcome at further ⊢
      obtain ⟨significand, taken, left⟩ := outcome
      have length := further.length
      refine ⟨further.small, ?_, further.below, further.all⟩
      simp only [List.length_cons] at length ⊢
      omega
    · refine ⟨small, Nat.zero_add _, ?_, fun fit => absurd fit ?_⟩
      · have more := le_ofDigitChars (c :: rest) start
        rwa [Nat.mul_comm] at more
      · have least := start_le_ofDigitChars rest (10 * start + (c.toNat - '0'.toNat))
        rw [Nat.ofDigitChars_cons]
        omega

end

section

variable {digits fraction rest : List Char} (negative : Bool) (significand : ℕ) (exponent : ℤ)

theorem readTail_of_ends (ends : Ends rest) :
    readTail negative significand exponent rest = finish negative significand exponent rest := by
  unfold readTail
  split
  · exact absurd rfl (ends 'e' rfl).2.2.1
  · exact absurd rfl (ends 'E' rfl).2.2.2
  · rfl

theorem exponentDigits_digits (each : ∀ c ∈ digits, c.isDigit) (stop : ∀ c ∈ rest.head?, c.isDigit = false) (start : ℕ)
    (small : Nat.ofDigitChars 10 digits start < 2 ^ 31) :
    exponentDigits start (digits ++ rest) = .ok (Nat.ofDigitChars 10 digits start, rest) := by
  induction digits generalizing start with
  | nil =>
    cases rest with
    | nil => rfl
    | cons c rest =>
      rw [List.nil_append, exponentDigits, stop c rfl]
      rfl
  | cons c more ih =>
    rw [Nat.ofDigitChars_cons] at small ⊢
    have least := start_le_ofDigitChars more (10 * start + (c.toNat - '0'.toNat))
    rw [List.cons_append, exponentDigits, if_pos (each c List.mem_cons_self)]
    simp only [append_digit]
    rw [if_pos (by omega), ih (fun c member => each c (List.mem_cons_of_mem _ member)) _ small]

/-- An exponent with its sign. -/
theorem readTail_exponent (down : Bool) {n : ℕ} (small : n < 2 ^ 31) (ends : Ends rest) :
    readTail negative significand exponent ('e' :: (if down then '-' else '+') :: (Nat.toDigits 10 n ++ rest)) =
      finish negative significand (if down then exponent - n else exponent + n) rest := by
  have each : ∀ c ∈ Nat.toDigits 10 n, c.isDigit := fun c member =>
    Nat.isDigit_of_mem_toDigits (by decide) (by decide) member
  have value : Nat.ofDigitChars 10 (Nat.toDigits 10 n) 0 = n := Nat.ofDigitChars_ten_toDigits
  have read := exponentDigits_digits each (fun c member => (ends c member).1) 0 (by rwa [value])
  rw [value] at read
  obtain ⟨first, more, digits⟩ := List.exists_cons_of_ne_nil (Nat.toDigits_ne_nil (n := n) (b := 10))
  have digit : first.isDigit := each first (digits ▸ List.mem_cons_self)
  rw [digits, List.cons_append] at read ⊢
  cases down <;> simp [readTail, readExponent, digit, read]

theorem readFraction_digits (some : fraction ≠ []) (each : ∀ c ∈ fraction, c.isDigit)
    (stop : ∀ c ∈ rest.head?, c.isDigit = false) : readFraction negative significand exponent (fraction ++ rest) =
      readTail negative (absorb significand fraction).1 (exponent - (absorb significand fraction).2.1) rest := by
  obtain ⟨taken, left⟩ := span_digits each stop
  rw [readFraction, taken, left, if_neg (by simpa using some)]

/-- Digits as they stand before a point: at least one of them, and no zero in front of others. -/
structure Whole (digits : List Char) : Prop where
  each : ∀ c ∈ digits, c.isDigit
  first : ∃ c more, digits = c :: more ∧ (c = '0' → more = [])

/-- How reading goes on behind digits that fit: what follows decides. -/
def readBehind (negative : Bool) (significand : ℕ) (rest : List Char) : Outcome :=
  match rest with
  | '.' :: fraction => readFraction negative significand 0 fraction
  | 'e' :: _ => readTail negative significand 0 rest
  | 'E' :: _ => readTail negative significand 0 rest
  | _ =>
    match ofDigits negative significand with
    | some n => .ok (n, rest)
    | none => .error (.outOfRange, rest)

theorem read_whole (whole : Whole digits) (small : Nat.ofDigitChars 10 digits 0 < 2 ^ 64)
    (stop : ∀ c ∈ rest.head?, c.isDigit = false) :
    read negative (digits ++ rest) = readBehind negative (Nat.ofDigitChars 10 digits 0) rest := by
  obtain ⟨taken, left⟩ := span_digits whole.each stop
  obtain ⟨value, all⟩ := (absorb_absorbs digits (by norm_num : 0 < 2 ^ 64)).all small
  obtain ⟨c, more, rfl, alone⟩ := whole.first
  have digit : c.isDigit := whole.each c List.mem_cons_self
  have plain : ¬ (c = '0' ∧ ((more ++ rest).head?.map Char.isDigit).getD false) := by
    rintro ⟨zero, another⟩
    rw [alone zero, List.nil_append] at another
    cases head : rest.head? with
    | none => simp [head] at another
    | some d => simp [head, stop d head] at another
  rw [List.cons_append, read, if_neg (by simp [digit]), if_neg plain, ← List.cons_append, taken, left, ← value]
  generalize absorb 0 (c :: more) = outcome at all ⊢
  obtain ⟨significand, _, _⟩ := outcome
  obtain rfl : _ = 0 := all
  dsimp only
  split
  · rfl
  · rename_i point
    split
    · rfl
    · rfl
    · rename_i small large
      rw [if_pos rfl]
      symm
      unfold readBehind
      split
      · exact absurd rfl (point _)
      · exact absurd rfl (small _)
      · exact absurd rfl (large _)
      · rfl

end

theorem whole_toDigits (n : ℕ) : Whole (Nat.toDigits 10 n) := by
  refine ⟨fun c member => Nat.isDigit_of_mem_toDigits (by decide) (by decide) member, ?_⟩
  rcases Nat.eq_zero_or_pos n with rfl | positive
  · exact ⟨'0', [], rfl, fun _ => rfl⟩
  · obtain ⟨first, more, digits, differs⟩ := Pointer.head_toDigits positive
    exact ⟨first, more, digits, fun zero => absurd zero differs⟩

theorem Whole.small {digits : List Char} (whole : Whole digits) (short : digits.length ≤ 16) :
    Nat.ofDigitChars 10 digits 0 < 2 ^ 64 :=
  calc Nat.ofDigitChars 10 digits 0 < (0 + 1) * 10 ^ digits.length := ofDigitChars_lt whole.each 0
    _ ≤ (0 + 1) * 10 ^ 16 := Nat.mul_le_mul_left _ (Nat.pow_le_pow_right (by norm_num) short)
    _ ≤ 2 ^ 64 := by norm_num

/-- The positional text has digits on both sides of its point, and few of them before it. -/
theorem positional_parts {d : Decimal} (near : d.leading < 16) : ∃ whole fraction,
    d.positional true = whole ++ '.' :: fraction ∧ Whole whole ∧ whole.length ≤ 16 ∧
      fraction ≠ [] ∧ ∀ c ∈ fraction, c.isDigit := by
  have digits := whole_toDigits d.digits
  have length : 0 < d.digitChars.length := Nat.length_toDigits_pos
  simp only [Decimal.leading] at near
  have zero : Whole ['0'] := whole_toDigits 0
  unfold Decimal.positional
  simp only [if_true]
  split_ifs with up none many
  · exact ⟨_, ['0'], rfl, zero, by simp, by simp, Decimal.isDigit_zero⟩
  · refine ⟨_, ['0'], rfl, ⟨?_, ?_⟩, ?_, by simp, Decimal.isDigit_zero⟩
    · exact List.forall_mem_append.mpr ⟨digits.each, Decimal.isDigit_replicate_zero _⟩
    · obtain ⟨first, more, text, differs⟩ := Pointer.head_toDigits (Nat.pos_of_ne_zero none)
      exact ⟨first, _, by rw [Decimal.digitChars, text, List.cons_append], fun same => absurd same differs⟩
    · rw [List.length_append, List.length_replicate]
      omega
  · refine ⟨['0'], _, rfl, zero, by simp, ?_, ?_⟩
    · exact List.append_ne_nil_of_right_ne_nil _ (List.ne_nil_of_length_pos length)
    · exact List.forall_mem_append.mpr ⟨Decimal.isDigit_replicate_zero _, digits.each⟩
  · refine ⟨_, _, rfl, ⟨fun c member => digits.each c (List.mem_of_mem_take member), ?_⟩, ?_, ?_,
      fun c member => digits.each c (List.mem_of_mem_drop member)⟩
    · have nonzero : 0 < d.digits := by
        refine Nat.pos_of_ne_zero fun none => many ?_
        rw [Decimal.digitChars, none]
        simp
        omega
      obtain ⟨first, more, text, differs⟩ := Pointer.head_toDigits nonzero
      obtain ⟨n, kept⟩ : ∃ n, d.digitChars.length - (-d.exponent).toNat = n + 1 :=
        ⟨d.digitChars.length - (-d.exponent).toNat - 1, by omega⟩
      exact ⟨first, more.take n, by rw [kept, Decimal.digitChars, text, List.take_succ_cons],
        fun same => absurd same differs⟩
    · rw [List.length_take]
      omega
    · refine List.ne_nil_of_length_pos ?_
      rw [List.length_drop]
      omega

variable {rest : List Char} (negative : Bool)

theorem read_positional {d : Decimal} (near : d.leading < 16) (ends : Ends rest) :
    ∃ n, read negative (d.positional true ++ rest) = .ok (n, rest) := by
  obtain ⟨whole, fraction, text, before, short, some, each⟩ := positional_parts near
  obtain ⟨n, value⟩ := ofParts?_isSome negative
    (absorb_absorbs fraction (before.small short)).small
    (Or.inl (by omega : 0 - ((absorb (Nat.ofDigitChars 10 whole 0) fraction).2.1 : ℤ) ≤ 0))
  refine ⟨n, ?_⟩
  rw [text, List.append_assoc, List.cons_append, read_whole negative before (before.small short) (by simp), readBehind,
    readFraction_digits negative _ _ some each (fun c member => (ends c member).1), readTail_of_ends negative _ _ ends,
    finish, value]

section

variable {d : Decimal} {first : Char} {more : List Char}

theorem whole_first (digits : d.digitChars = first :: more) : Whole [first] := by
  have digit := d.isDigit_digitChars first (digits ▸ List.mem_cons_self)
  exact ⟨List.forall_mem_singleton.mpr digit, first, [], rfl, fun _ => rfl⟩

/-- The digits of the scientific text go into the significand one by one, and the exponent counts those that are
taken. -/
theorem read_scientific_eq (digits : d.digitChars = first :: more) (small : d.leading.natAbs < 2 ^ 31)
    (ends : Ends rest) :
    read negative (d.scientific ++ rest) = finish negative (absorb (Nat.ofDigitChars 10 [first] 0) more).1
      (d.leading - (absorb (Nat.ofDigitChars 10 [first] 0) more).2.1) rest := by
  have each := d.isDigit_digitChars
  rw [digits] at each
  have whole := whole_first digits
  have fits := whole.small (by simp)
  -- the exponent behind the digits, whichever sign it has
  obtain ⟨down, sign, moved⟩ : ∃ down : Bool, (if d.leading < 0 then '-' else '+') = (if down then '-' else '+') ∧
      ∀ e : ℤ, (if down then 0 - e - d.leading.natAbs else 0 - e + d.leading.natAbs) = d.leading - e := by
    rcases Int.lt_or_le d.leading 0 with below | above
    · exact ⟨true, if_pos below, fun e => by rw [if_pos rfl]; omega⟩
    · exact ⟨false, if_neg (Int.not_lt.mpr above), fun e => by rw [if_neg (by decide)]; omega⟩
  have tail := readTail_exponent negative (absorb (Nat.ofDigitChars 10 [first] 0) more).1
    (0 - (absorb (Nat.ofDigitChars 10 [first] 0) more).2.1) down small ends
  rw [moved, ← sign] at tail
  rw [Decimal.scientific, digits, ← tail]
  cases more with
  | nil => exact read_whole negative whole fits (by simp)
  | cons second more =>
    have others := readFraction_digits negative (Nat.ofDigitChars 10 [first] 0) 0 (List.cons_ne_nil second more)
      (fun c member => each c (List.mem_cons_of_mem _ member))
      (by simp : ∀ c ∈ ('e' :: (if d.leading < 0 then '-' else '+') ::
        (Nat.toDigits 10 d.leading.natAbs ++ rest)).head?, c.isDigit = false)
    rw [← others, List.append_assoc]
    exact read_whole negative whole fits (by simp)

/-- As far as all digits are taken in, the parts are those of the decimal; else they are smaller. -/
theorem absorb_value (digits : d.digitChars = first :: more) {outcome : ℕ × ℕ × ℕ}
    (absorbs : Absorbs (Nat.ofDigitChars 10 [first] 0) more outcome) :
    (outcome.1 * 10 ^ (d.leading - outcome.2.1) : ℚ) ≤ d.value ∧
      (d.digits < 2 ^ 64 → outcome.1 = d.digits ∧ d.leading - outcome.2.1 = d.exponent) := by
  have value : Nat.ofDigitChars 10 more (Nat.ofDigitChars 10 [first] 0) = d.digits := by
    rw [← Nat.ofDigitChars_append, List.singleton_append, ← digits]
    exact Nat.ofDigitChars_ten_toDigits
  have length := absorbs.length
  have exponent : d.leading - outcome.2.1 = d.exponent + outcome.2.2 := by
    rw [Decimal.leading, digits, List.length_cons]
    omega
  constructor
  · rw [exponent, Int.add_comm, zpow_add₀ (by norm_num), zpow_natCast, ← mul_assoc]
    refine mul_le_mul_of_nonneg_right ?_ (zpow_pos (by norm_num) _).le
    exact_mod_cast absorbs.below.trans_eq value
  · intro small
    obtain ⟨all, none⟩ := absorbs.all (value.trans_lt small)
    rw [exponent, none]
    exact ⟨all.trans value, by simp⟩

end

/-- The first digit stands for its power of ten. -/
theorem ten_zpow_leading_le {d : Decimal} (positive : 0 < d.digits) : (10 : ℚ) ^ d.leading ≤ d.value := by
  have length : 0 < d.digitChars.length := Nat.length_toDigits_pos
  obtain ⟨n, count⟩ : ∃ n, d.digitChars.length = n + 1 := ⟨d.digitChars.length - 1, by omega⟩
  have least : 10 ^ n ≤ d.digits := by
    rcases Nat.eq_zero_or_pos n with rfl | more
    · exact positive
    · refine Nat.le_of_not_lt fun less => ?_
      have short := (Nat.length_toDigits_le_iff (by norm_num) more).mpr less
      rw [Decimal.digitChars] at count
      omega
  rw [Decimal.leading, count, show d.exponent + (n + 1 : ℕ) - 1 = n + d.exponent by push_cast; ring,
    zpow_add₀ (by norm_num), zpow_natCast]
  exact mul_le_mul_of_nonneg_right (by exact_mod_cast least) (zpow_pos (by norm_num) _).le

theorem read_scientific {d : Decimal} (positive : 0 < d.digits) (low : -400 ≤ d.exponent) (within : d.value ≤ reach)
    (ends : Ends rest) : ∃ n, read negative (d.scientific ++ rest) = .ok (n, rest) := by
  obtain ⟨first, more, digits⟩ := List.exists_cons_of_ne_nil (Nat.toDigits_ne_nil (n := d.digits) (b := 10))
  have absorbs := absorb_absorbs more ((whole_first digits).small (by simp))
  obtain ⟨n, value⟩ := ofParts?_isSome negative absorbs.small (Or.inr ((absorb_value digits absorbs).1.trans within))
  have bound : d.leading < 309 := by
    have : (10 : ℚ) ^ d.leading < 10 ^ (309 : ℤ) := by
      refine ((ten_zpow_leading_le positive).trans within).trans_lt ?_
      rw [zpow_ofNat]
      exact_mod_cast reach_lt
    exact (zpow_lt_zpow_iff_right₀ (by norm_num)).mp this
  have length : 0 < d.digitChars.length := Nat.length_toDigits_pos
  have small : d.leading.natAbs < 2 ^ 31 := by
    rw [Decimal.leading] at bound ⊢
    omega
  exact ⟨n, by rw [read_scientific_eq negative digits small ends, finish, value]⟩

/-- The shortest decimal of the last finite value is read digit by digit. -/
theorem read_scientific_last (ends : Ends rest) :
    ∃ n, read negative ((⟨lastDigits, 292⟩ : Decimal).scientific ++ rest) = .ok (n, rest) := by
  obtain ⟨first, more, digits⟩ := List.exists_cons_of_ne_nil (Nat.toDigits_ne_nil (n := lastDigits) (b := 10))
  have digits : (⟨lastDigits, 292⟩ : Decimal).digitChars = first :: more := digits
  have absorbs := absorb_absorbs more ((whole_first digits).small (by simp))
  obtain ⟨significand, exponent⟩ := (absorb_value digits absorbs).2 (by norm_num [lastDigits])
  obtain ⟨n, value⟩ := ofParts?_last negative
  have length : (⟨lastDigits, 292⟩ : Decimal).digitChars.length ≤ 17 :=
    (Nat.length_toDigits_le_iff (by norm_num) (by norm_num)).mpr (by norm_num [lastDigits])
  have small : (⟨lastDigits, 292⟩ : Decimal).leading.natAbs < 2 ^ 31 := by
    rw [Decimal.leading]
    dsimp only
    omega
  refine ⟨n, ?_⟩
  rw [read_scientific_eq negative digits small ends, significand, exponent, finish]
  dsimp only
  rw [value]

/-- The magnitude of a floating-point number as it is written, without its sign. -/
theorem read_float (x : Binary64) (ends : Ends rest) : ∃ n,
    read negative ((if x.place = 0 ∨ (-5 ≤ (Decimal.shortest x).leading ∧ (Decimal.shortest x).leading < 16)
      then (Decimal.shortest x).positional true else (Decimal.shortest x).scientific) ++ rest) = .ok (n, rest) := by
  split_ifs with near
  · refine read_positional negative ?_ ends
    rcases near with zero | near
    · rw [Decimal.shortest, if_pos zero]
      decide
    · exact near.2
  · have nonzero : x.place ≠ 0 := fun zero => near (Or.inl zero)
    by_cases last : x.place + 1 = limit
    · have decimal : Decimal.shortest x = ⟨lastDigits, 292⟩ := by
        obtain ⟨negative, place, finite⟩ := x
        obtain rfl : place = limit - 1 := Nat.eq_sub_of_add_eq last
        have each : ∀ negative, Decimal.shortest ⟨negative, limit - 1, by decide⟩ = ⟨lastDigits, 292⟩ := by
          decide +kernel
        exact each negative
      rw [decimal]
      exact read_scientific_last negative ends
    · have below := le_reach_of_nearest (by have := x.finite; omega) (Decimal.nearest_shortest nonzero)
      exact read_scientific negative (Decimal.shortest_digits_pos nonzero) (Decimal.shortest_exponent_bounds x).1 below
        ends

theorem exists_digit_of_read {text : List Char} {outcome : Number × List Char} (ok : read negative text = .ok outcome) :
    ∃ c more, text = c :: more ∧ c.isDigit := by
  cases text with
  | nil => cases ok
  | cons c more =>
    refine ⟨c, more, rfl, ?_⟩
    by_contra other
    rw [read, if_pos (by simpa using other)] at ok
    cases ok

/-- An integer is read as it is. -/
theorem ofDigits_natAbs {n : ℤ} (inRange : IntegerRange n) :
    ofDigits (decide (n < 0)) n.natAbs = some (.int n inRange) := by
  rcases Int.lt_or_le n 0 with below | above
  · obtain ⟨m, rfl⟩ : ∃ m : ℕ, n = -(m : ℤ) := ⟨n.natAbs, by omega⟩
    have nonzero : m ≠ 0 := by omega
    rw [decide_eq_true below, Int.natAbs_neg, Int.natAbs_natCast, ofDigits, if_neg (by decide),
      dif_pos ⟨nonzero, inRange⟩]
  · obtain ⟨m, rfl⟩ := Int.eq_ofNat_of_zero_le above
    rw [decide_eq_false (Int.not_lt.mpr above), Int.natAbs_natCast, ofDigits, if_pos (by decide), ofInt?,
      dif_pos inRange]

theorem read_integer {n : ℤ} (inRange : IntegerRange n) (ends : Ends rest) :
    ∃ m, read (decide (n < 0)) (Nat.toDigits 10 n.natAbs ++ rest) = .ok (m, rest) := by
  have value : Nat.ofDigitChars 10 (Nat.toDigits 10 n.natAbs) 0 = n.natAbs := Nat.ofDigitChars_ten_toDigits
  have small : n.natAbs < 2 ^ 64 := by
    unfold IntegerRange at inRange
    omega
  refine ⟨.int n inRange, ?_⟩
  rw [read_whole _ (whole_toDigits _) (by rwa [value]) (fun c member => (ends c member).1), value, readBehind,
    ofDigits_natAbs inRange]
  · exact fun _ same => (ends '.' (same ▸ rfl)).2.1 rfl
  · exact fun _ same => (ends 'e' (same ▸ rfl)).2.2.1 rfl
  · exact fun _ same => (ends 'E' (same ▸ rfl)).2.2.2 rfl

/-- A written number is a sign or none, and a magnitude that is read whatever follows behind its end. -/
theorem text_read (n : Number) : ∃ negative first magnitude,
    n.text.toList = (if negative then '-' :: first :: magnitude else first :: magnitude) ∧ first.isDigit ∧
      ∀ rest, Ends rest → ∃ m, read negative (first :: magnitude ++ rest) = .ok (m, rest) := by
  suffices parts : ∃ negative magnitude, n.text.toList = (if negative then '-' :: magnitude else magnitude) ∧
      ∀ rest, Ends rest → ∃ m, read negative (magnitude ++ rest) = .ok (m, rest) by
    obtain ⟨negative, magnitude, text, reads⟩ := parts
    obtain ⟨m, alone⟩ := reads [] fun _ member => by cases member
    rw [List.append_nil] at alone
    obtain ⟨first, more, rfl, digit⟩ := exists_digit_of_read negative alone
    exact ⟨negative, first, more, text, digit, reads⟩
  cases n with
  | int n inRange =>
    refine ⟨decide (n < 0), Nat.toDigits 10 n.natAbs, ?_, fun rest ends => read_integer inRange ends⟩
    rw [text, toList_toString_int]
    simp only [decide_eq_true_eq]
  | float x =>
    refine ⟨x.negative, _, ?_, fun rest ends => read_float x.negative x ends⟩
    rw [text, toJsonText, signed, String.toList_ofList]

end Number

end Schemata
