import Schemata.Proofs.Decimal.Notation
import Schemata.Proofs.Json.Quoted
import Schemata.Proofs.TypeScript.Grammar

namespace Schemata

namespace TsGrammar

variable {α β : Type} {marks marks' rest written : List Char}

/-- The first character after the blanks is one of the marks, if there is one. -/
def Ahead (marks rest : List Char) : Prop := ∀ c ∈ (Json.skipBlanks rest).head?, c ∈ marks

/-- The reader takes the written part, and no more, for a value with the property. -/
def Takes (read : Reader α) (written marks : List Char) (P : α → Prop) : Prop :=
  ∃ value, P value ∧ ∀ rest, Ahead marks rest → read (written ++ rest) = some (value, rest)

/-- A blank in front makes no difference. -/
def SkipsBlank (read : Reader α) : Prop := ∀ text, read (' ' :: text) = read text

/-- Where types end, outside of all operators. -/
def ends : List Char := [',', '>', ')', '\x7d', ';', ']']

theorem ahead_nil (marks : List Char) : Ahead marks [] := fun c member => by cases member

theorem ahead_cons {c : Char} (visible : Json.isBlank c = false) (member : c ∈ marks) : Ahead marks (c :: rest) := by
  intro d head
  rw [Json.skipBlanks, List.dropWhile_cons_of_neg (by simp [visible]), List.head?_cons, Option.mem_some_iff] at head
  exact head ▸ member

theorem Ahead.blank (ahead : Ahead marks rest) : Ahead marks (' ' :: rest) := ahead

theorem Ahead.mono (ahead : Ahead marks rest) (more : marks ⊆ marks') : Ahead marks' rest :=
  fun c member => more (ahead c member)

theorem Takes.mono {read : Reader α} {P : α → Prop} (takes : Takes read written marks' P) (fewer : marks ⊆ marks') :
    Takes read written marks P := by
  obtain ⟨value, holds, reads⟩ := takes
  exact ⟨value, holds, fun rest ahead => reads rest (ahead.mono fewer)⟩

theorem Takes.imp {read : Reader α} {P Q : α → Prop} (takes : Takes read written marks P)
    (weaker : ∀ value, P value → Q value) : Takes read written marks Q := by
  obtain ⟨value, holds, reads⟩ := takes
  exact ⟨value, weaker value holds, reads⟩

theorem mark?_cons (mark : Char) (visible : Json.isBlank mark = false) (rest : List Char) :
    mark? mark (mark :: rest) = some rest := by
  rw [mark?, Json.skipBlanks, List.dropWhile_cons_of_neg (by simp [visible])]
  exact if_pos rfl

theorem mark?_eq_none {mark : Char} (ahead : Ahead marks rest) (fresh : mark ∉ marks) : mark? mark rest = none := by
  rw [mark?]
  split
  · rfl
  · rename_i c others found
    refine if_neg fun same => fresh ?_
    rw [← same]
    exact ahead c (by rw [found]; rfl)

theorem ahead_of_mark? {mark : Char} {others : List Char} (found : mark? mark rest = some others) (member : mark ∈ marks) :
    Ahead marks rest := by
  intro c head
  rw [mark?] at found
  split at found
  · cases found
  · rename_i d others there
    rw [there, List.head?_cons, Option.mem_some_iff] at head
    split at found
    · rename_i same
      rwa [← head, same]
    · cases found

/-- A run of characters ends where a mark is ahead that cannot be in it. -/
theorem span_of_ahead {p : Char → Bool} (each : ∀ c ∈ written, p c) (ahead : Ahead marks rest)
    (stops : marks.all (!p ·)) (blank : [' ', '\t', '\n', '\r'].all (!p ·)) :
    (written ++ rest).takeWhile p = written ∧ (written ++ rest).dropWhile p = rest := by
  have outside : rest.takeWhile p = [] ∧ rest.dropWhile p = rest := by
    cases rest with
    | nil => exact ⟨rfl, rfl⟩
    | cons c others =>
      have out : p c = false := by
        by_cases hidden : Json.isBlank c
        · have listed : c ∈ [' ', '\t', '\n', '\r'] := by
            simpa [Json.isBlank, or_assoc] using hidden
          simpa using List.all_eq_true.mp blank c listed
        · have first : c ∈ (Json.skipBlanks (c :: others)).head? := by
            rw [Json.skipBlanks, List.dropWhile_cons_of_neg hidden]
            rfl
          simpa using List.all_eq_true.mp stops c (ahead c first)
      exact ⟨List.takeWhile_cons_of_neg (by simp [out]), List.dropWhile_cons_of_neg (by simp [out])⟩
  rw [List.takeWhile_append_of_pos each, List.dropWhile_append_of_pos each, outside.1, outside.2, List.append_nil]
  exact ⟨rfl, rfl⟩

theorem intercalate_eq_append_flatMap (sep first : List α) (others : List (List α)) :
    sep.intercalate (first :: others) = first ++ others.flatMap (sep ++ ·) := by
  induction others generalizing first with
  | nil => simp
  | cons second others ih => rw [List.intercalate_cons_cons, ih, List.flatMap_cons, List.append_assoc, List.append_assoc]

section

variable {mark : Char} {sep : List Char} {part : Reader α} {write : β → List Char} {P : α → β → Prop}

theorem skipsBlank_separated (skips : SkipsBlank part) : SkipsBlank (separated mark part) := by
  intro text
  rw [separated, skips]
  rfl

theorem following_of_ahead (ahead : Ahead marks rest) (fresh : mark ∉ marks) (bound : Nat) :
    following mark part bound rest = some ([], rest) := by
  cases bound with
  | zero => rfl
  | succ bound => rw [following, mark?_eq_none ahead fresh]

/-- A part stands alone where its mark is not ahead. -/
theorem takes_separated_one {Q : α → Prop} (takes : Takes part written (mark :: marks) Q) (fresh : mark ∉ marks) :
    Takes (separated mark part) written marks fun read => ∃ value, read = [value] ∧ Q value := by
  obtain ⟨value, holds, reads⟩ := takes
  refine ⟨[value], ⟨value, rfl, holds⟩, fun rest ahead => ?_⟩
  simp only [separated, reads rest (ahead.mono (List.subset_cons_self _ _)), following_of_ahead ahead fresh,
    Option.bind_eq_bind, Option.bind_some]
  rfl

/-- After a part comes the next mark, or what is behind the list. -/
theorem ahead_flatMap (opens : ∀ rest, mark? mark (sep ++ rest) = some (' ' :: rest)) (write : β → List Char)
    (values : List β) (ahead : Ahead marks rest) :
    Ahead (mark :: marks) (values.flatMap (fun b => sep ++ write b) ++ rest) := by
  cases values with
  | nil => exact ahead.mono (List.subset_cons_self _ _)
  | cons b values =>
    rw [List.flatMap_cons, List.append_assoc, List.append_assoc]
    exact ahead_of_mark? (opens _) List.mem_cons_self

theorem takes_following (opens : ∀ rest, mark? mark (sep ++ rest) = some (' ' :: rest)) (skips : SkipsBlank part)
    (fresh : mark ∉ marks) {values : List β} (each : ∀ b ∈ values, Takes part (write b) (mark :: marks) (P · b)) :
    ∃ read, List.Forall₂ P read values ∧ ∀ rest, Ahead marks rest → ∀ bound, values.length ≤ bound →
      following mark part bound (values.flatMap (fun b => sep ++ write b) ++ rest) = some (read, rest) := by
  induction values with
  | nil =>
    refine ⟨[], .nil, fun rest ahead bound _ => ?_⟩
    rw [List.flatMap_nil, List.nil_append, following_of_ahead ahead fresh]
  | cons b values ih =>
    obtain ⟨here, later⟩ := List.forall_mem_cons.mp each
    obtain ⟨first, holds, takes⟩ := here
    obtain ⟨others, all, reads⟩ := ih later
    refine ⟨first :: others, .cons holds all, fun rest ahead bound enough => ?_⟩
    rw [List.length_cons] at enough
    obtain ⟨bound, rfl⟩ : ∃ fewer, bound = fewer + 1 := ⟨bound - 1, by omega⟩
    have next := ahead_flatMap opens write values ahead
    rw [List.flatMap_cons, List.append_assoc, List.append_assoc, following, opens]
    simp only [skips _, takes _ next, reads rest ahead bound (by omega), Option.bind_eq_bind, Option.bind_some]
    rfl

theorem length_le_length_flatMap {write : β → List Char} (some : ∀ b, write b ≠ []) (values : List β) :
    values.length ≤ (values.flatMap write).length := by
  induction values with
  | nil => exact Nat.le_refl 0
  | cons b values ih =>
    have := List.length_pos_of_ne_nil (some b)
    rw [List.flatMap_cons, List.length_append, List.length_cons]
    omega

/-- A list is taken when each of its parts is, with the mark or the end of the list ahead. -/
theorem takes_separated (opens : ∀ rest, mark? mark (sep ++ rest) = some (' ' :: rest)) (skips : SkipsBlank part)
    (fresh : mark ∉ marks) {first : β} {values : List β}
    (each : ∀ b ∈ first :: values, Takes part (write b) (mark :: marks) (P · b)) :
    Takes (separated mark part) (sep.intercalate ((first :: values).map write)) marks
      (List.Forall₂ P · (first :: values)) := by
  obtain ⟨here, later⟩ := List.forall_mem_cons.mp each
  obtain ⟨value, holds, takes⟩ := here
  obtain ⟨others, all, reads⟩ := takes_following opens skips fresh later
  have sepSome : sep ≠ [] := by
    rintro rfl
    exact absurd (opens []) (by simp [mark?, Json.skipBlanks])
  refine ⟨value :: others, .cons holds all, fun rest ahead => ?_⟩
  have next := ahead_flatMap opens write values ahead
  have enough : values.length ≤ (values.flatMap (fun b => sep ++ write b) ++ rest).length := by
    have := length_le_length_flatMap (fun b => List.append_ne_nil_of_left_ne_nil sepSome (write b)) values
    rw [List.length_append]
    omega
  rw [List.map_cons, intercalate_eq_append_flatMap, List.flatMap_map, List.append_assoc]
  simp only [separated, takes _ next, reads rest ahead _ enough, Option.bind_eq_bind, Option.bind_some]
  rfl

end

theorem exponent?_digits {digits : List Char} (some : digits ≠ []) (each : ∀ c ∈ digits, c.isDigit) :
    Extended.exponent? digits = Option.some (Extended.digitsValue digits : Int) := by
  obtain ⟨c, others, rfl⟩ := List.exists_cons_of_ne_nil some
  have digit := each c List.mem_cons_self
  have all : (c :: others).all Char.isDigit := List.all_eq_true.mpr each
  unfold Extended.exponent?
  split
  rename_i sign digits parts
  split at parts
  · rename_i same
    cases same
    exact absurd digit (by decide)
  · rename_i same
    cases same
    exact absurd digit (by decide)
  · cases parts
    simp only [all, List.isEmpty_cons, Bool.not_true, Bool.or_self, Bool.false_eq_true, if_false]

theorem exponent?_minus {digits : List Char} (some : digits ≠ []) (each : ∀ c ∈ digits, c.isDigit) :
    Extended.exponent? ('-' :: digits) = Option.some (-(Extended.digitsValue digits : Int)) := by
  have all : digits.all Char.isDigit := List.all_eq_true.mpr each
  simp [Extended.exponent?, List.isEmpty_eq_false_iff.mpr some, all]

theorem digits_toDigits (n : Nat) : Nat.toDigits 10 n ≠ [] ∧ (∀ c ∈ Nat.toDigits 10 n, c.isDigit) ∧
    Extended.digitsValue (Nat.toDigits 10 n) = n :=
  ⟨Nat.toDigits_ne_nil, fun _ member => Nat.isDigit_of_mem_toDigits (by decide) (by decide) member,
    (Extended.digitsValue_eq _).trans Nat.ofDigitChars_ten_toDigits⟩

theorem exponent?_toString (n : Int) : Extended.exponent? (toString n).toList = some n := by
  obtain ⟨some, each, value⟩ := digits_toDigits n.natAbs
  rw [toList_toString_int]
  split
  · rw [exponent?_minus some each, value]
    congr 1
    omega
  · rw [exponent?_digits some each, value]
    congr 1
    omega

theorem literalOfNumeral?_toString (n : Int) : literalOfNumeral? (toString n).toList = some (.int n) := by
  rw [literalOfNumeral?, exponent?_toString, Option.filter_some, if_pos (by simp)]

/-- A floating-point number is read back, or the integer that has the same digits. -/
theorem literalOfNumeral?_toPlainText (x : Binary64) :
    ∃ read, literalOfNumeral? x.toPlainText.toList = some read ∧ read.Alike (.number (.finite x)) := by
  rw [literalOfNumeral?]
  split
  · rename_i value found
    have same := (Option.filter_eq_some_iff.mp found).2
    refine ⟨.int value, rfl, .digits ?_⟩
    rw [decide_eq_true_eq] at same
    exact String.toList_injective same
  · rw [String.ofList_toList, Extended.ofText?_toPlainText]
    exact ⟨_, rfl, .refl _⟩

/-- The text is a number to the eye: it starts like one and has the characters of one. -/
def IsNumeral (written : List Char) : Prop :=
  (∃ c rest, written = c :: rest ∧ startsNumeral c) ∧ ∀ c ∈ written, inNumeral c

theorem isNumeral_minus {digits : List Char} (each : ∀ c ∈ digits, inNumeral c) : IsNumeral ('-' :: digits) :=
  ⟨⟨'-', digits, rfl, by decide⟩, List.forall_mem_cons.mpr ⟨by decide, each⟩⟩

theorem isNumeral_toString (n : Int) : IsNumeral (toString n).toList := by
  obtain ⟨some, each, -⟩ := digits_toDigits n.natAbs
  have inside : ∀ c ∈ Nat.toDigits 10 n.natAbs, inNumeral c := fun c member => by simp [inNumeral, each c member]
  rw [toList_toString_int]
  split
  · exact isNumeral_minus inside
  · obtain ⟨c, rest, same⟩ := List.exists_cons_of_ne_nil some
    exact ⟨⟨c, rest, same, by simp [startsNumeral, each c (same ▸ List.mem_cons_self)]⟩, inside⟩

theorem isNumeral_toPlainText (x : Binary64) : IsNumeral x.toPlainText.toList := by
  obtain ⟨written, writes, -, -⟩ := Decimal.positional_writes (Decimal.shortest x)
  have starts := writes.head
  have inside : ∀ c ∈ (Decimal.shortest x).positional false, inNumeral c := by
    generalize (Decimal.shortest x).positional false = text at writes
    cases writes with
    | whole some each => exact fun c member => by simp [inNumeral, each c member]
    | fraction some each =>
      obtain ⟨left, right⟩ := List.forall_mem_append.mp each
      refine List.forall_mem_append.mpr
        ⟨fun c member => ?_, List.forall_mem_cons.mpr ⟨by decide, fun c member => ?_⟩⟩
      · simp [inNumeral, left c member]
      · simp [inNumeral, right c member]
  rw [Binary64.toPlainText, Binary64.signed, String.toList_ofList]
  split
  · exact isNumeral_minus inside
  · obtain ⟨c, rest, same, digit⟩ := starts
    exact ⟨⟨c, rest, same, by simp [startsNumeral, digit]⟩, inside⟩

end TsGrammar

end Schemata
