import Schemata.Proofs.TypeScript.Atom
import Schemata.Proofs.TypeScript.Legible

namespace Schemata

namespace TsGrammar

variable {inner : Reader TsType} {marks rest written : List Char} {P : TsType → Prop}

theorem skipsBlank_operand (inner : Reader TsType) : SkipsBlank (operand inner) := fun _ => rfl

theorem skipsBlank_intersection (inner : Reader TsType) : SkipsBlank (intersection inner) := fun _ => rfl

theorem skipsBlank_union (inner : Reader TsType) : SkipsBlank (union inner) := fun _ => rfl

theorem skipsBlank_type (depth : Nat) : SkipsBlank (type depth) := by
  cases depth with
  | zero => exact fun _ => rfl
  | succ depth => exact skipsBlank_union _

theorem skipsBlank_position (depth : Nat) : SkipsBlank (position (type depth)) := by
  intro text
  rw [position, skipsBlank_type]
  rfl

theorem skipsBlank_property (inner : Reader TsType) : SkipsBlank (property inner) := fun _ => rfl

/-- No type starts with a character that neither opens an atom nor is one of a number or a name. -/
theorem type_eq_none {c : Char} {text : List Char} (first : Json.skipBlanks text = c :: rest)
    (foreign : c ∉ ['"', '[', '\x7b', '('] ∧ startsNumeral c = false ∧ TsText.inIdentifier c = false) (depth : Nat) :
    type depth text = none := by
  cases depth with
  | zero => rfl
  | succ depth =>
    obtain ⟨opens, number, letter⟩ := foreign
    simp only [List.mem_cons, List.not_mem_nil, or_false, not_or] at opens
    have nothing : atom (type depth) text = none := by
      rw [atom, first]
      simp only [opens, number, word, identifier, List.takeWhile_cons, letter, if_false, Bool.false_eq_true]
      rfl
    simp only [type, union, intersection, operand, separated, nothing]
    rfl

/-- The reader takes an operand, and goes on with its brackets. -/
def TakesOperand (inner : Reader TsType) (written : List Char) (P : TsType → Prop) : Prop :=
  ∃ value, P value ∧ ∀ rest, Ahead atomEnds rest → operand inner (written ++ rest) = some (brackets value rest)

theorem takesOperand_of_atom (takes : Takes (atom inner) written atomEnds P) : TakesOperand inner written P := by
  obtain ⟨value, holds, reads⟩ := takes
  refine ⟨value, holds, fun rest ahead => ?_⟩
  rw [operand, reads rest ahead]
  rfl

theorem brackets_of_ahead (ahead : Ahead operandEnds rest) (value : TsType) : brackets value rest = (value, rest) := by
  unfold brackets
  split
  · exact absurd (ahead '[' rfl) (by decide)
  · rfl

theorem TakesOperand.takes (takes : TakesOperand inner written P) : Takes (operand inner) written operandEnds P := by
  obtain ⟨value, holds, reads⟩ := takes
  refine ⟨value, holds, fun rest ahead => ?_⟩
  rw [reads rest (ahead.mono (List.subset_cons_self _ _)), brackets_of_ahead ahead]

/-- Brackets make an operand the elements of an array. -/
theorem TakesOperand.brackets {Q : TsType → Prop} (takes : TakesOperand inner written P)
    (makes : ∀ value, P value → Q (.array value)) : TakesOperand inner (written ++ ['[', ']']) Q := by
  obtain ⟨value, holds, reads⟩ := takes
  refine ⟨.array value, makes value holds, fun rest _ => ?_⟩
  rw [List.append_assoc]
  exact reads ('[' :: ']' :: rest) (ahead_cons rfl List.mem_cons_self)

theorem takes_intersection_one (takes : Takes (operand inner) written operandEnds P) :
    Takes (intersection inner) written factorEnds P := by
  obtain ⟨_, ⟨value, rfl, holds⟩, reads⟩ := takes_separated_one takes (by decide)
  refine ⟨value, holds, fun rest ahead => ?_⟩
  rw [intersection, reads rest ahead]
  rfl

theorem takes_union_one (takes : Takes (intersection inner) written factorEnds P) :
    Takes (union inner) written ends P := by
  obtain ⟨_, ⟨value, rfl, holds⟩, reads⟩ := takes_separated_one takes (by decide)
  refine ⟨value, holds, fun rest ahead => ?_⟩
  rw [union, reads rest ahead]
  rfl

theorem combined_of_two {join : List TsType → TsType} {types : List TsType} (two : 2 ≤ types.length) :
    combined join types = join types := by
  rcases types with - | ⟨first, - | ⟨second, others⟩⟩
  · rfl
  · simp at two
  · rfl

end TsGrammar

namespace TsType

open TsGrammar

theorem texts_eq (types : List TsType) : texts types = types.map text := by
  induction types with
  | nil => rw [texts, List.map_nil]
  | cons type types ih => rw [texts, ih, List.map_cons]

theorem memberTexts_eq (types : List TsType) :
    memberTexts types = types.map fun type => parenthesized type.isUnion type.text := by
  induction types with
  | nil => rw [memberTexts, List.map_nil]
  | cons type types ih => rw [memberTexts, ih, List.map_cons]

theorem propertyTexts_eq (properties : List Property) : propertyTexts properties = properties.map propertyText := by
  induction properties with
  | nil => rw [propertyTexts, List.map_nil]
  | cons property properties ih => rw [propertyTexts, ih, List.map_cons, propertyText]

/-- The characters of the text. -/
def chars (type : TsType) : List Char := type.text.toList

/-- The text as it stands in front of brackets. -/
def operandChars (type : TsType) : List Char :=
  if type.isCombination then '(' :: (type.chars ++ [')']) else type.chars

theorem toList_parenthesized (needed : Bool) (text : String) :
    (parenthesized needed text).toList = if needed then '(' :: (text.toList ++ [')']) else text.toList := by
  cases needed <;> simp [parenthesized]

theorem chars_array (element : TsType) : (array element).chars = element.operandChars ++ ['[', ']'] := by
  rw [chars, text, String.toList_append, toList_parenthesized]
  rfl

theorem chars_union (members : List TsType) : (union members).chars = [' ', '|', ' '].intercalate (members.map chars) := by
  rw [chars, text, texts_eq, String.toList_intercalate, List.map_map]
  rfl

theorem chars_intersection {members : List TsType} (flat : ∀ member ∈ members, member.isCombination = member.isUnion) :
    (intersection members).chars = [' ', '&', ' '].intercalate (members.map operandChars) := by
  rw [chars, text, memberTexts_eq, String.toList_intercalate, List.map_map]
  congr 1
  refine List.map_congr_left fun member listed => ?_
  rw [Function.comp_apply, toList_parenthesized, ← flat member listed]
  rfl

theorem chars_record (key value : TsType) :
    (record key value).chars = "Record".toList ++ '<' :: (key.chars ++ ',' :: ' ' :: (value.chars ++ ['>'])) := by
  simp [chars, text]

/-- The type is taken wherever it can stand without parentheses. -/
structure Reads (inner : Reader TsType) (type : TsType) : Prop where
  operand : type.isCombination = false → TakesOperand inner type.chars (Alike · type)
  intersection : type.isUnion = false → Takes (TsGrammar.intersection inner) type.chars factorEnds (Alike · type)
  union : Takes (TsGrammar.union inner) type.chars ends (Alike · type)

/-- The type is read back when the grammar may nest as deep as the text is long. -/
def Readable (type : TsType) : Prop := ∀ depth, type.chars.length ≤ depth → Reads (TsGrammar.type depth) type

variable {inner : Reader TsType} {type element : TsType} {depth : Nat}

theorem Reads.of_intersection (takes : Takes (TsGrammar.intersection inner) type.chars factorEnds (Alike · type))
    (combination : type.isCombination) : Reads inner type where
  operand none := by rw [combination] at none; cases none
  intersection _ := takes
  union := takes_union_one takes

theorem Reads.of_operand (takes : TakesOperand inner type.chars (Alike · type)) : Reads inner type where
  operand _ := takes
  intersection _ := takes_intersection_one takes.takes
  union := takes_union_one (takes_intersection_one takes.takes)

theorem Reads.of_atom (takes : Takes (atom inner) type.chars atomEnds (Alike · type)) : Reads inner type :=
  .of_operand (takesOperand_of_atom takes)

theorem Readable.nested (readable : Readable type) (enough : type.chars.length < depth) :
    Takes (TsGrammar.type depth) type.chars ends (Alike · type) := by
  obtain ⟨depth, rfl⟩ : ∃ fewer, depth = fewer + 1 := ⟨depth - 1, by omega⟩
  exact (readable depth (by omega)).union

/-- As an operand the type may need parentheses. -/
theorem Readable.operand (readable : Readable type) (enough : type.chars.length < depth) :
    TakesOperand (TsGrammar.type depth) type.operandChars (Alike · type) := by
  unfold operandChars
  split
  · exact takesOperand_of_atom (takes_parenthesis (readable.nested enough))
  · rename_i alone
    exact (readable depth (by omega)).operand (by simpa using alone)

theorem length_chars_le (type : TsType) : type.chars.length ≤ type.operandChars.length := by
  unfold operandChars
  split
  · simp only [List.length_cons, List.length_append]
    omega
  · exact Nat.le_refl _

theorem readable_array (readable : Readable element) : Readable (array element) := by
  intro depth enough
  have shorter := length_chars_le element
  refine .of_operand ?_
  rw [chars_array, List.length_append] at *
  exact (readable.operand (by simp only [List.length_cons] at enough; omega)).brackets fun _ => .array

theorem opens_bar (rest : List Char) : mark? '|' ([' ', '|', ' '] ++ rest) = some (' ' :: rest) := rfl

theorem opens_and (rest : List Char) : mark? '&' ([' ', '&', ' '] ++ rest) = some (' ' :: rest) := rfl

theorem opens_comma (rest : List Char) : mark? ',' ([',', ' '] ++ rest) = some (' ' :: rest) := rfl

theorem opens_semicolon (rest : List Char) : mark? ';' ([';', ' '] ++ rest) = some (' ' :: rest) := rfl

theorem length_le_length_intercalate (sep : List Char) {chars : List Char} {parts : List (List Char)}
    (member : chars ∈ parts) : chars.length ≤ (sep.intercalate parts).length := by
  induction parts with
  | nil => cases member
  | cons first others ih =>
    cases others with
    | nil => rw [List.mem_singleton.mp member, List.intercalate_singleton]
    | cons second others =>
      rw [List.intercalate_cons_cons, List.length_append, List.length_append]
      rcases List.mem_cons.mp member with rfl | later
      · omega
      · have := ih later
        omega

/-- Among others a part is shorter than the whole. -/
theorem length_lt_length_intercalate {sep chars : List Char} {parts : List (List Char)} (some : sep ≠ [])
    (two : 2 ≤ parts.length) (member : chars ∈ parts) : chars.length < (sep.intercalate parts).length := by
  have positive := List.length_pos_of_ne_nil some
  rcases parts with - | ⟨first, - | ⟨second, others⟩⟩
  · cases member
  · simp at two
  · rw [List.intercalate_cons_cons, List.length_append, List.length_append]
    rcases List.mem_cons.mp member with rfl | later
    · omega
    · have : chars.length ≤ (sep.intercalate (second :: others)).length := length_le_length_intercalate sep later
      omega

theorem readable_union {members : List TsType} (legible : (union members).Legible)
    (each : ∀ member ∈ members, Readable member) : Readable (union members) := by
  obtain ⟨two, flat⟩ := legible
  intro depth enough
  rw [chars_union] at enough
  rcases members with - | ⟨first, others⟩
  · simp at two
  have takes : Takes (TsGrammar.union (TsGrammar.type depth)) (union (first :: others)).chars ends
      (Alike · (.union (first :: others))) := by
    obtain ⟨read, all, reads⟩ := takes_separated opens_bar (skipsBlank_intersection (TsGrammar.type depth))
      (by decide : '|' ∉ ends) fun member listed =>
        (each member listed depth ((length_le_length_intercalate _ (List.mem_map_of_mem listed)).trans enough)).intersection
          (flat member listed)
    refine ⟨.union read, .union all, fun rest ahead => ?_⟩
    rw [TsGrammar.union, chars_union, reads rest ahead, Option.map_some, combined_of_two (all.length_eq ▸ two)]
  exact ⟨fun none => (by cases none), fun none => (by cases none), takes⟩

theorem readable_intersection {members : List TsType} (legible : (intersection members).Legible)
    (each : ∀ member ∈ members, Readable member) : Readable (intersection members) := by
  obtain ⟨two, flat⟩ := legible
  intro depth enough
  rw [chars_intersection flat] at enough
  rcases members with - | ⟨first, others⟩
  · simp at two
  refine .of_intersection ?_ rfl
  obtain ⟨read, all, reads⟩ := takes_separated opens_and (skipsBlank_operand (TsGrammar.type depth))
    (by decide : '&' ∉ factorEnds) fun member listed =>
      ((each member listed).operand ((length_chars_le member).trans_lt ((length_lt_length_intercalate (by decide)
        (by simpa using two) (List.mem_map_of_mem listed)).trans_le enough))).takes
  refine ⟨.intersection read, .intersection all, fun rest ahead => ?_⟩
  rw [TsGrammar.intersection, chars_intersection flat, reads rest ahead, Option.map_some,
    combined_of_two (all.length_eq ▸ two)]

theorem readable_record {key value : TsType} (keys : Readable key) (values : Readable value) :
    Readable (record key value) := by
  intro depth enough
  rw [chars_record] at enough
  simp only [List.length_append, List.length_cons] at enough
  refine .of_atom ?_
  rw [chars_record]
  refine (takes_record (skipsBlank_type depth) (keys.nested (by omega)) (values.nested (by omega))).imp ?_
  rintro _ ⟨k, v, rfl, alikeKey, alikeValue⟩
  exact .record alikeKey alikeValue

/-- An atom does not depend on what is inside of it when it has no types in it. -/
theorem readable_of_atom (takes : ∀ inner, Takes (atom inner) type.chars atomEnds (Alike · type)) : Readable type :=
  fun depth _ => .of_atom (takes (TsGrammar.type depth))

theorem readable_ref {name : String} (legible : (ref name).Legible) : Readable (ref name) := by
  refine readable_of_atom fun inner => ?_
  have notRecord : name ≠ "Record" := by
    rintro rfl
    exact legible.2 (by decide)
  refine (takes_word legible.1 notRecord).imp ?_
  rintro _ rfl
  rw [ofWord_of_not_keyword legible.2]
  exact .ref name

end TsType

end Schemata
