import Schemata.Proofs.Json.Number
import Schemata.Proofs.Json.Quoted

namespace Schemata

namespace Json

/-- What was written is read, up to `rest`, when it fits. When it does not, the reader meets a container that is too
deep. -/
inductive Reads {α : Type} (fits : Prop) (rest : List Char) : Except Fault (Parsed α) → Prop
  | read (within : fits) (value : α) : Reads fits rest (.ok (value, rest))
  | tooDeep (past : ¬ fits) {fault : Fault} (cause : fault.cause = .tooDeep) : Reads fits rest (.error fault)

section

variable {α β : Type} {fits fits' : Prop} {rest middle : List Char} {outcome : Except Fault (Parsed α)}

theorem Reads.congr (reads : Reads fits rest outcome) (same : fits ↔ fits') : Reads fits' rest outcome :=
  propext same ▸ reads

theorem Reads.map (reads : Reads fits rest outcome) (f : α → β) :
    Reads fits rest (outcome.map fun (value, rest) => (f value, rest)) := by
  cases reads with
  | read within value => exact .read within (f value)
  | tooDeep past cause => exact .tooDeep past cause

theorem Reads.bind_pure (reads : Reads fits rest outcome) (f : α → β) :
    Reads fits rest (do
      let (value, rest) ← outcome
      return (f value, rest)) := by
  cases reads with
  | read within value => exact .read within (f value)
  | tooDeep past cause => exact .tooDeep past cause

theorem Reads.bind (reads : Reads fits middle outcome) {next : Parsed α → Except Fault (Parsed β)}
    (further : ∀ value, Reads fits' rest (next (value, middle))) : Reads (fits ∧ fits') rest (outcome >>= next) := by
  cases reads with
  | read within value =>
    exact (further value).congr ⟨fun within' => ⟨within, within'⟩, And.right⟩
  | tooDeep past cause => exact .tooDeep (fun both => past both.1) cause

end

/-- One member, and the others behind it. -/
theorem Reads.cons {α : Type} {fits fits' : Prop} {rest middle : List Char} {outcome : Except Fault (Parsed α)}
    (reads : Reads fits middle outcome) {further : List Char → Except Fault (Parsed (List α))}
    (others : Reads fits' rest (further middle)) :
    Reads (fits ∧ fits') rest (do
      let (value, rest) ← outcome
      let (values, rest) ← further rest
      return (value :: values, rest)) :=
  reads.bind fun value => others.bind_pure (value :: ·)

/-- The members of a list after its first. -/
def itemsTail (items : List Json) : List Char := items.flatMap fun item => ',' :: item.compact.toList

/-- An entry of an object. -/
def fieldText (field : String × Json) : List Char :=
  '"' :: (field.1.toList.flatMap escapeChar ++ '"' :: ':' :: field.2.compact.toList)

/-- The entries of an object after its first. -/
def fieldsTail (fields : List (String × Json)) : List Char := fields.flatMap fun field => ',' :: fieldText field

theorem toList_quoted (text : String) : (quoted text).toList = '"' :: (text.toList.flatMap escapeChar ++ ['"']) := by
  rw [quoted, String.toList_ofList]

theorem toList_compact_array (first : Json) (items : List Json) :
    (array (first :: items)).compact.toList = '[' :: (first.compact.toList ++ itemsTail items ++ [']']) := by
  have inner : (compact.compactItems (first :: items)).toList = first.compact.toList ++ itemsTail items := by
    induction items generalizing first with
    | nil => simp [compact.compactItems, itemsTail]
    | cons next items ih =>
      rw [itemsTail, List.flatMap_cons, ← itemsTail, List.cons_append, ← ih]
      simp [compact.compactItems]
  rw [compact, String.toList_append, String.toList_append, inner]
  rfl

theorem toList_compact_object (first : String × Json) (fields : List (String × Json)) :
    (object (first :: fields)).compact.toList = '\x7b' :: (fieldText first ++ fieldsTail fields ++ ['\x7d']) := by
  have inner : (compact.compactFields (first :: fields)).toList = fieldText first ++ fieldsTail fields := by
    induction fields generalizing first with
    | nil => simp [compact.compactFields, fieldText, fieldsTail, toList_quoted]
    | cons next fields ih =>
      rw [fieldsTail, List.flatMap_cons, ← fieldsTail, List.cons_append, ← ih]
      simp [compact.compactFields, fieldText, toList_quoted]
  rw [compact, String.toList_append, String.toList_append, inner]
  rfl

theorem ne_of_isDigit {c other : Char} (digit : c.isDigit) (letter : other.isDigit = false) : c ≠ other := by
  rintro rfl
  rw [digit] at letter
  cases letter

theorem itemsTail_cons (item : Json) (items : List Json) :
    itemsTail (item :: items) = ',' :: (item.compact.toList ++ itemsTail items) := List.flatMap_cons

theorem fieldsTail_cons (field : String × Json) (fields : List (String × Json)) :
    fieldsTail (field :: fields) = ',' :: (fieldText field ++ fieldsTail fields) := List.flatMap_cons

theorem length_lt_fieldText (field : String × Json) :
    field.2.compact.toList.length < (fieldText field).length := by
  simp only [fieldText, List.length_cons, List.length_append]
  omega

/-- A written value begins with a character that is no blank and closes no list. -/
theorem head_compact (value : Json) : ∃ c more, value.compact.toList = c :: more ∧ isBlank c = false ∧ c ≠ ']' := by
  cases value with
  | null => exact ⟨'n', _, rfl, by decide, by decide⟩
  | bool value => cases value <;> exact ⟨_, _, rfl, by decide, by decide⟩
  | number n =>
    obtain ⟨negative, first, magnitude, text, digit, -⟩ := n.text_read
    rw [compact, text]
    cases negative with
    | true => exact ⟨'-', _, rfl, by decide, by decide⟩
    | false =>
      exact ⟨first, _, rfl, by simp [isBlank, ne_of_isDigit digit], ne_of_isDigit digit rfl⟩
  | string text => exact ⟨'"', _, toList_quoted text, by decide, by decide⟩
  | array items =>
    cases items with
    | nil => exact ⟨'[', _, rfl, by decide, by decide⟩
    | cons first items => exact ⟨'[', _, toList_compact_array first items, by decide, by decide⟩
  | object fields =>
    cases fields with
    | nil => exact ⟨'\x7b', _, rfl, by decide, by decide⟩
    | cons first fields => exact ⟨'\x7b', _, toList_compact_object first fields, by decide, by decide⟩

theorem ends_nil : Number.Ends [] := fun _ member => by cases member

theorem ends_cons {c : Char} (mark : c ∈ [',', ']', '\x7d']) (rest : List Char) : Number.Ends (c :: rest) := by
  rintro _ ⟨⟩
  simp only [List.mem_cons, List.not_mem_nil, or_false] at mark
  rcases mark with rfl | rfl | rfl <;> decide

theorem ends_itemsTail (items : List Json) (rest : List Char) : Number.Ends (itemsTail items ++ ']' :: rest) := by
  cases items with
  | nil => exact ends_cons (by decide) _
  | cons item items => exact ends_cons (by decide) _

theorem ends_fieldsTail (fields : List (String × Json)) (rest : List Char) :
    Number.Ends (fieldsTail fields ++ '\x7d' :: rest) := by
  cases fields with
  | nil => exact ends_cons (by decide) _
  | cons field fields => exact ends_cons (by decide) _

theorem skipBlanks_cons {c : Char} (visible : isBlank c = false) (rest : List Char) :
    skipBlanks (c :: rest) = c :: rest :=
  List.dropWhile_cons_of_neg (by simp [visible])

section

variable {fuel limit : Nat} {rest text : List Char}

theorem readValue_null : Reads True rest (readValue (fuel + 1) limit (null.compact.toList ++ rest)) := by
  rw [show null.compact.toList ++ rest = 'n' :: 'u' :: 'l' :: 'l' :: rest from rfl, readValue,
    skipBlanks_cons (by decide)]
  exact .read trivial null

theorem readValue_bool (value : Bool) :
    Reads True rest (readValue (fuel + 1) limit ((bool value).compact.toList ++ rest)) := by
  cases value with
  | true =>
    rw [show (bool true).compact.toList ++ rest = 't' :: 'r' :: 'u' :: 'e' :: rest from rfl, readValue,
      skipBlanks_cons (by decide)]
    exact .read trivial (bool true)
  | false =>
    rw [show (bool false).compact.toList ++ rest = 'f' :: 'a' :: 'l' :: 's' :: 'e' :: rest from rfl, readValue,
      skipBlanks_cons (by decide)]
    exact .read trivial (bool false)

theorem readValue_digit {c : Char} (digit : c.isDigit) (text : List Char) :
    readValue (fuel + 1) limit (c :: text) = readNumber false (c :: text) := by
  rw [readValue, skipBlanks_cons (by simp [isBlank, ne_of_isDigit digit])]
  dsimp only
  rw [if_neg (ne_of_isDigit digit rfl), if_neg (ne_of_isDigit digit rfl), if_neg (ne_of_isDigit digit rfl),
    if_neg (ne_of_isDigit digit rfl), if_pos digit]

theorem readValue_number (n : Number) (ends : Number.Ends rest) :
    Reads True rest (readValue (fuel + 1) limit (n.text.toList ++ rest)) := by
  obtain ⟨negative, first, magnitude, text, digit, reads⟩ := n.text_read
  obtain ⟨m, number⟩ := reads rest ends
  have outcome : readValue (fuel + 1) limit (n.text.toList ++ rest) = .ok (.number m, rest) := by
    rw [text]
    cases negative with
    | true =>
      have sign : readValue (fuel + 1) limit ('-' :: (first :: magnitude ++ rest)) =
          readNumber true (first :: magnitude ++ rest) := by
        rw [readValue, skipBlanks_cons (by decide)]
        rfl
      rw [if_pos rfl, List.cons_append, sign, readNumber, number]
    | false => rw [if_neg (by decide), List.cons_append, readValue_digit digit, ← List.cons_append, readNumber, number]
  rw [outcome]
  exact .read trivial _

theorem readValue_quote (text : List Char) : readValue (fuel + 1) limit ('"' :: text) =
    (readString text).map fun (value, rest) => (.string value, rest) := by
  rw [readValue, skipBlanks_cons (by decide)]
  rfl

theorem readValue_bracket (text : List Char) : readValue (fuel + 1) limit ('[' :: text) = match limit with
    | 0 => faultAt .tooDeep ('[' :: text)
    | limit + 1 => (readItems fuel limit text).map fun (items, rest) => (.array items, rest) := by
  rw [readValue, skipBlanks_cons (by decide)]
  rfl

theorem readValue_brace (text : List Char) : readValue (fuel + 1) limit ('\x7b' :: text) = match limit with
    | 0 => faultAt .tooDeep ('\x7b' :: text)
    | limit + 1 =>
      (readFields fuel limit text).map fun (fields, rest) => (.object (Table.insertAll [] fields), rest) := by
  rw [readValue, skipBlanks_cons (by decide)]
  rfl

theorem readValue_string (content : String) (rest : List Char) :
    Reads True rest (readValue (fuel + 1) limit ((quoted content).toList ++ rest)) := by
  rw [toList_quoted, List.cons_append, List.append_assoc, readValue_quote, List.singleton_append, readString_quoted]
  exact .read trivial _

theorem readValue_array {items : List Json}
    (inner : ∀ limit, Reads (depth.depthOfItems items ≤ limit) rest (readItems fuel limit text)) :
    Reads ((array items).depth ≤ limit) rest (readValue (fuel + 1) limit ('[' :: text)) := by
  rw [readValue_bracket, Json.depth]
  cases limit with
  | zero => exact .tooDeep (by omega) rfl
  | succ limit => exact ((inner limit).map Json.array).congr (by omega)

theorem readValue_object {fields : List (String × Json)}
    (inner : ∀ limit, Reads (depth.depthOfFields fields ≤ limit) rest (readFields fuel limit text)) :
    Reads ((object fields).depth ≤ limit) rest (readValue (fuel + 1) limit ('\x7b' :: text)) := by
  rw [readValue_brace, Json.depth]
  cases limit with
  | zero => exact .tooDeep (by omega) rfl
  | succ limit => exact ((inner limit).map fun fields => Json.object (Table.insertAll [] fields)).congr (by omega)

theorem readField_named (name : String) (text : List Char) :
    readField (fuel + 1) limit (name.toList.flatMap escapeChar ++ '"' :: ':' :: text) = (do
      let (value, rest) ← readValue fuel limit text
      let (fields, rest) ← readMoreFields fuel limit rest
      return ((name, value) :: fields, rest)) := by
  have colon : readColon (':' :: text) = .ok text := by
    rw [readColon, skipBlanks_cons (by decide)]
    rfl
  rw [readField, readString_quoted]
  simp only [bind, Except.bind, colon]

theorem readItems_nil : Reads True rest (readItems (fuel + 1) limit (']' :: rest)) := by
  rw [readItems, skipBlanks_cons (by decide)]
  exact .read trivial []

theorem readMoreItems_nil : Reads True rest (readMoreItems (fuel + 1) limit (']' :: rest)) := by
  rw [readMoreItems, skipBlanks_cons (by decide)]
  exact .read trivial []

theorem readFields_nil : Reads True rest (readFields (fuel + 1) limit ('\x7d' :: rest)) := by
  rw [readFields, skipBlanks_cons (by decide)]
  exact .read trivial []

theorem readMoreFields_nil : Reads True rest (readMoreFields (fuel + 1) limit ('\x7d' :: rest)) := by
  rw [readMoreFields, skipBlanks_cons (by decide)]
  exact .read trivial []

variable {fits fits' : Prop} {middle : List Char}

section

variable {item : Json} (first : Reads fits middle (readValue fuel limit (item.compact.toList ++ middle)))
  (others : Reads fits' rest (readMoreItems fuel limit middle))

include first others

theorem readItems_cons : Reads (fits ∧ fits') rest (readItems (fuel + 1) limit (item.compact.toList ++ middle)) := by
  obtain ⟨c, more, text, visible, differs⟩ := item.head_compact
  have both := first.cons others
  rw [text, List.cons_append] at both ⊢
  rw [readItems, skipBlanks_cons visible]
  split
  · rename_i none
    cases none
  · rename_i same
    cases same
    exact absurd rfl differs
  · exact both

theorem readMoreItems_cons :
    Reads (fits ∧ fits') rest (readMoreItems (fuel + 1) limit (',' :: (item.compact.toList ++ middle))) := by
  obtain ⟨c, more, text, visible, differs⟩ := item.head_compact
  have both := first.cons others
  rw [text, List.cons_append] at both ⊢
  rw [readMoreItems, skipBlanks_cons (by decide)]
  simp only [skipBlanks_cons visible]
  split
  · rename_i none
    cases none
  · rename_i same
    cases same
    exact absurd rfl differs
  · exact both

end

/-- An entry, after the quote of its name, and the others behind it. -/
theorem readField_cons {field : String × Json}
    (first : Reads fits middle (readValue fuel limit (field.2.compact.toList ++ middle)))
    (others : Reads fits' rest (readMoreFields fuel limit middle)) :
    Reads (fits ∧ fits') rest (readField (fuel + 1) limit
      (field.1.toList.flatMap escapeChar ++ '"' :: ':' :: (field.2.compact.toList ++ middle))) := by
  rw [readField_named]
  exact first.bind fun value => others.bind_pure ((field.1, value) :: ·)

theorem readFields_cons {field : String × Json} {text : List Char} :
    readFields (fuel + 1) limit (fieldText field ++ text) = readField fuel limit
      (field.1.toList.flatMap escapeChar ++ '"' :: ':' :: (field.2.compact.toList ++ text)) := by
  rw [fieldText, List.cons_append, readFields, skipBlanks_cons (by decide), List.append_assoc]
  rfl

theorem readMoreFields_cons {field : String × Json} {text : List Char} :
    readMoreFields (fuel + 1) limit (',' :: (fieldText field ++ text)) = readField fuel limit
      (field.1.toList.flatMap escapeChar ++ '"' :: ':' :: (field.2.compact.toList ++ text)) := by
  rw [fieldText, List.cons_append, readMoreFields, skipBlanks_cons (by decide), List.append_assoc]
  dsimp only
  rw [if_neg (by decide), if_pos rfl, skipBlanks_cons (by decide)]
  rfl

end

mutual
/-- The written value is read as a whole, or its containers are too many. -/
theorem readValue_compact (value : Json) (fuel limit : Nat) (rest : List Char)
    (enough : 2 * value.compact.toList.length ≤ fuel) (ends : Number.Ends rest) :
    Reads (value.depth ≤ limit) rest (readValue fuel limit (value.compact.toList ++ rest)) := by
  have some : 0 < value.compact.toList.length := by
    obtain ⟨c, more, text, -⟩ := value.head_compact
    rw [text]
    exact Nat.succ_pos _
  obtain ⟨fuel, rfl⟩ : ∃ n, fuel = n + 1 := ⟨fuel - 1, by omega⟩
  cases value with
  | null => exact readValue_null.congr (iff_of_true trivial (Nat.zero_le _))
  | bool value => exact (readValue_bool value).congr (iff_of_true trivial (Nat.zero_le _))
  | number n => exact (readValue_number n ends).congr (iff_of_true trivial (Nat.zero_le _))
  | string text => exact (readValue_string text rest).congr (iff_of_true trivial (Nat.zero_le _))
  | array items =>
    cases items with
    | nil =>
      have two : (array []).compact.toList.length = 2 := rfl
      obtain ⟨fuel, rfl⟩ : ∃ n, fuel = n + 1 := ⟨fuel - 1, by omega⟩
      exact readValue_array fun limit => readItems_nil.congr (iff_of_true trivial (Nat.zero_le _))
    | cons item items =>
      rw [toList_compact_array] at enough ⊢
      simp only [List.length_cons, List.length_append] at enough
      rw [List.cons_append, List.append_assoc, List.append_assoc]
      refine readValue_array fun limit => ?_
      obtain ⟨fuel, rfl⟩ : ∃ n, fuel = n + 1 := ⟨fuel - 1, by omega⟩
      have first := readValue_compact item fuel limit _ (by omega) (ends_itemsTail items rest)
      have others := readMoreItems_tail items fuel limit rest (by omega)
      exact (readItems_cons first others).congr (by rw [depth.depthOfItems]; omega)
  | object fields =>
    cases fields with
    | nil =>
      have two : (object []).compact.toList.length = 2 := rfl
      obtain ⟨fuel, rfl⟩ : ∃ n, fuel = n + 1 := ⟨fuel - 1, by omega⟩
      exact readValue_object fun limit => readFields_nil.congr (iff_of_true trivial (Nat.zero_le _))
    | cons field fields =>
      rw [toList_compact_object] at enough ⊢
      simp only [List.length_cons, List.length_append] at enough
      rw [List.cons_append, List.append_assoc, List.append_assoc]
      refine readValue_object fun limit => ?_
      have long := length_lt_fieldText field
      obtain ⟨fuel, rfl⟩ : ∃ n, fuel = n + 2 := ⟨fuel - 2, by omega⟩
      have first := readValue_compact field.2 fuel limit _ (by omega) (ends_fieldsTail fields rest)
      have others := readMoreFields_tail fields fuel limit rest (by omega)
      rw [List.singleton_append, readFields_cons]
      exact (readField_cons first others).congr (by rw [depth.depthOfFields]; omega)

theorem readMoreItems_tail (items : List Json) (fuel limit : Nat) (rest : List Char)
    (enough : 2 * (itemsTail items).length < fuel) :
    Reads (depth.depthOfItems items ≤ limit) rest (readMoreItems fuel limit (itemsTail items ++ ']' :: rest)) := by
  obtain ⟨fuel, rfl⟩ : ∃ n, fuel = n + 1 := ⟨fuel - 1, by omega⟩
  cases items with
  | nil => exact readMoreItems_nil.congr (iff_of_true trivial (Nat.zero_le _))
  | cons item items =>
    rw [itemsTail_cons] at enough ⊢
    simp only [List.length_cons, List.length_append] at enough
    rw [List.cons_append, List.append_assoc]
    have first := readValue_compact item fuel limit _ (by omega) (ends_itemsTail items rest)
    have others := readMoreItems_tail items fuel limit rest (by omega)
    exact (readMoreItems_cons first others).congr (by rw [depth.depthOfItems]; omega)

theorem readMoreFields_tail (fields : List (String × Json)) (fuel limit : Nat) (rest : List Char)
    (enough : 2 * (fieldsTail fields).length < fuel) :
    Reads (depth.depthOfFields fields ≤ limit) rest
      (readMoreFields fuel limit (fieldsTail fields ++ '\x7d' :: rest)) := by
  obtain ⟨fuel, rfl⟩ : ∃ n, fuel = n + 1 := ⟨fuel - 1, by omega⟩
  cases fields with
  | nil => exact readMoreFields_nil.congr (iff_of_true trivial (Nat.zero_le _))
  | cons field fields =>
    rw [fieldsTail_cons] at enough ⊢
    simp only [List.length_cons, List.length_append] at enough
    rw [List.cons_append, List.append_assoc]
    have long := length_lt_fieldText field
    obtain ⟨fuel, rfl⟩ : ∃ n, fuel = n + 1 := ⟨fuel - 1, by omega⟩
    have first := readValue_compact field.2 fuel limit _ (by omega) (ends_fieldsTail fields rest)
    have others := readMoreFields_tail fields fuel limit rest (by omega)
    rw [readMoreFields_cons]
    exact (readField_cons first others).congr (by rw [depth.depthOfFields]; omega)
end

/-- The compact text of a value is read when the value nests no deeper than the reader allows. When it nests deeper, the
reader says so. -/
theorem read_compact (value : Json) :
    (value.depth ≤ maxDepth → ∃ result, read value.compact = .ok result) ∧
      (maxDepth < value.depth → ∃ e, read value.compact = .error e ∧ e.cause = .tooDeep) := by
  have reads := readValue_compact value (2 * value.compact.toList.length + 2) maxDepth [] (by omega) ends_nil
  rw [List.append_nil] at reads
  generalize outcome : readValue (2 * value.compact.toList.length + 2) maxDepth value.compact.toList = found at reads
  cases reads with
  | read within result =>
    have text : readText value.compact.toList = .ok result := by
      rw [readText, outcome]
      rfl
    exact ⟨fun _ => ⟨result, by rw [read, text]⟩, fun past => absurd within (Nat.not_le.mpr past)⟩
  | @tooDeep past fault cause =>
    have text : readText value.compact.toList = .error fault := by
      rw [readText, outcome]
      rfl
    exact ⟨fun within => absurd within past, fun _ => ⟨fault.locate _, by rw [read, text], cause⟩⟩

end Json

end Schemata
