import Schemata.Proofs.Document.Load
import Schemata.Yaml.Conversion

namespace Schemata

namespace Yaml

namespace Value

/-- The value without the tags around it. -/
def untagged : Value → Value
  | .tagged _ value => value.untagged
  | value => value

/-- A sequence or a mapping, under tags or not. -/
def IsCollection (value : Value) : Prop :=
  (∃ items, value.untagged = .sequence items) ∨ ∃ entries, value.untagged = .mapping entries

/-- The second value stands in the first, not inside a key. -/
inductive Reached : Value → Value → Prop
  | here (value : Value) : Reached value value
  | item {items : List Value} {item inner : Value} (member : item ∈ items) (further : Reached item inner) :
      Reached (.sequence items) inner
  | entry {entries : List (Value × Value)} {entry : Value × Value} {inner : Value} (member : entry ∈ entries)
      (further : Reached entry.2 inner) : Reached (.mapping entries) inner
  | tagged {tag : String} {value inner : Value} (further : Reached value inner) : Reached (.tagged tag value) inner

/-- There is no JSON form because of the value itself. -/
inductive Unwritable : Value → Prop
  | infinite (negative : Bool) : Unwritable (.float (.infinite negative))
  | nan : Unwritable (.float .nan)
  | key {entries : List (Value × Value)} {entry : Value × Value} (member : entry ∈ entries)
      (collection : entry.1.IsCollection) : Unwritable (.mapping entries)

mutual
/-- The JSON value corresponds to the value part by part. The entries of a mapping have one member each, in their order,
under the text of the key; `gather` makes the object of these members. -/
inductive Image (gather : Table Json → Table Json) : Value → Json → Prop
  | null : Image gather .null .null
  | bool (b : Bool) : Image gather (.bool b) (.bool b)
  | int (n : Int) (h : IntegerRange n) : Image gather (.int n h) (.number (.int n h))
  | float (x : Binary64) : Image gather (.float (.finite x)) (.number (.float x))
  | string (text : String) : Image gather (.string text) (.string text)
  | sequence {items : List Value} {values : List Json} (each : ItemsImage gather items values) :
      Image gather (.sequence items) (.array values)
  | mapping {entries : List (Value × Value)} {members : Table Json} (each : EntriesImage gather entries members) :
      Image gather (.mapping entries) (.object (gather members))
  | tagged {value : Value} {json : Json} (tag : String) (inner : Image gather value json) :
      Image gather (.tagged tag value) json

inductive ItemsImage (gather : Table Json → Table Json) : List Value → List Json → Prop
  | nil : ItemsImage gather [] []
  | cons {item : Value} {value : Json} {items : List Value} {values : List Json} (first : Image gather item value)
      (others : ItemsImage gather items values) : ItemsImage gather (item :: items) (value :: values)

inductive EntriesImage (gather : Table Json → Table Json) : List (Value × Value) → Table Json → Prop
  | nil : EntriesImage gather [] []
  | cons {key value : Value} {name : String} {json : Json} {entries : List (Value × Value)} {members : Table Json}
      (text : key.keyText = .ok name) (first : Image gather value json) (others : EntriesImage gather entries members) :
      EntriesImage gather ((key, value) :: entries) ((name, json) :: members)
end

/-- No two keys have the same text. -/
def DifferentTexts (entries : List (Value × Value)) : Prop :=
  entries.Pairwise fun entry other => ∀ text, entry.1.keyText = .ok text → other.1.keyText ≠ .ok text

/-- No mapping has two keys with the same text. -/
def TextsDistinct (value : Value) : Prop := ∀ entries, value.Reached (.mapping entries) → DifferentTexts entries

/-- There is no result. -/
def Fails {α : Type} (outcome : Except ConversionError α) : Prop := ∃ error, outcome = .error error

variable {α β : Type}

theorem fails_map {outcome : Except ConversionError α} {f : α → β} : Fails (outcome.map f) ↔ Fails outcome := by
  cases outcome <;> simp [Fails, Except.map]

/-- Whether one of two parts fails does not depend on the result of the first when that is not used. -/
theorem fails_bind {outcome : Except ConversionError α} {next : α → Except ConversionError β} {P : Prop}
    (each : ∀ a, Fails (next a) ↔ P) : Fails (outcome >>= next) ↔ Fails outcome ∨ P := by
  cases outcome with
  | error error => exact iff_of_true ⟨error, rfl⟩ (Or.inl ⟨error, rfl⟩)
  | ok a =>
    have done : ¬ Fails (Except.ok a : Except ConversionError α) := nofun
    rw [or_iff_right done]
    exact each a

theorem fails_keyText (key : Value) : Fails key.keyText ↔ key.IsCollection := by
  induction key using keyText.induct <;> simp_all [keyText, Fails, IsCollection, untagged]

/-- What a value reaches there is no JSON form of. -/
def HasUnwritable (value : Value) : Prop := ∃ inner, value.Reached inner ∧ inner.Unwritable

theorem hasUnwritable_tagged {tag : String} {value : Value} : (tagged tag value).HasUnwritable ↔ value.HasUnwritable := by
  constructor
  · rintro ⟨inner, reached, unwritable⟩
    cases reached with
    | here => cases unwritable
    | tagged further => exact ⟨inner, further, unwritable⟩
  · rintro ⟨inner, reached, unwritable⟩
    exact ⟨inner, .tagged reached, unwritable⟩

theorem hasUnwritable_sequence {items : List Value} :
    (sequence items).HasUnwritable ↔ ∃ item ∈ items, item.HasUnwritable := by
  constructor
  · rintro ⟨inner, reached, unwritable⟩
    cases reached with
    | here => cases unwritable
    | item member further => exact ⟨_, member, inner, further, unwritable⟩
  · rintro ⟨item, member, inner, reached, unwritable⟩
    exact ⟨inner, .item member reached, unwritable⟩

theorem hasUnwritable_mapping {entries : List (Value × Value)} : (mapping entries).HasUnwritable ↔
    ∃ entry ∈ entries, entry.1.IsCollection ∨ entry.2.HasUnwritable := by
  constructor
  · rintro ⟨inner, reached, unwritable⟩
    cases reached with
    | here =>
      cases unwritable with
      | key member collection => exact ⟨_, member, Or.inl collection⟩
    | entry member further => exact ⟨_, member, Or.inr ⟨inner, further, unwritable⟩⟩
  · rintro ⟨entry, member, collection | ⟨inner, reached, unwritable⟩⟩
    · exact ⟨_, .here _, .key member collection⟩
    · exact ⟨inner, .entry member reached, unwritable⟩

mutual
theorem fails_toJson (value : Value) : Fails value.toJson ↔ value.HasUnwritable := by
  have scalar {value : Value} {json : Json} (done : value.toJson = .ok json)
      (alone : ∀ inner, value.Reached inner → ¬ inner.Unwritable) : Fails value.toJson ↔ value.HasUnwritable :=
    iff_of_false (by rintro ⟨error, failed⟩; cases done.symm.trans failed) fun ⟨inner, reached, unwritable⟩ =>
      alone inner reached unwritable
  cases value with
  | null => exact scalar rfl (by rintro _ ⟨⟩ ⟨⟩)
  | bool b => exact scalar rfl (by rintro _ ⟨⟩ ⟨⟩)
  | int n h => exact scalar rfl (by rintro _ ⟨⟩ ⟨⟩)
  | float x =>
    cases x with
    | finite x => exact scalar rfl (by rintro _ ⟨⟩ ⟨⟩)
    | infinite negative => exact iff_of_true ⟨_, rfl⟩ ⟨_, .here _, .infinite negative⟩
    | nan => exact iff_of_true ⟨_, rfl⟩ ⟨_, .here _, .nan⟩
  | string text => exact scalar rfl (by rintro _ ⟨⟩ ⟨⟩)
  | sequence items =>
    rw [toJson, fails_map, hasUnwritable_sequence]
    exact fails_itemsToJson items
  | mapping entries =>
    rw [toJson, fails_map, hasUnwritable_mapping]
    exact fails_entriesToJson [] entries
  | tagged tag value =>
    rw [toJson, hasUnwritable_tagged]
    exact fails_toJson value

theorem fails_itemsToJson (items : List Value) : Fails (itemsToJson items) ↔ ∃ item ∈ items, item.HasUnwritable := by
  cases items with
  | nil => exact iff_of_false nofun nofun
  | cons item rest =>
    rw [itemsToJson, List.exists_mem_cons_iff, ← fails_toJson item]
    refine fails_bind fun first => ?_
    rw [← fails_itemsToJson rest]
    exact fails_map

theorem fails_entriesToJson (object : Table Json) (entries : List (Value × Value)) : Fails (entriesToJson object entries) ↔
    ∃ entry ∈ entries, entry.1.IsCollection ∨ entry.2.HasUnwritable := by
  cases entries with
  | nil => exact iff_of_false nofun nofun
  | cons entry rest =>
    obtain ⟨key, value⟩ := entry
    rw [entriesToJson, List.exists_mem_cons_iff, or_assoc, ← fails_keyText, ← fails_toJson value]
    exact fails_bind fun name => fails_bind fun member => fails_entriesToJson _ rest
end

mutual
/-- The members of an object are inserted one after the other. -/
theorem image_toJson {value : Value} {json : Json} (done : value.toJson = .ok json) :
    value.Image (Table.insertAll []) json := by
  cases value with
  | null =>
    cases done
    exact .null
  | bool b =>
    cases done
    exact .bool b
  | int n h =>
    cases done
    exact .int n h
  | float x =>
    cases x with
    | finite x =>
      cases done
      exact .float x
    | infinite negative => cases done
    | nan => cases done
  | string text =>
    cases done
    exact .string text
  | sequence items =>
    rw [toJson] at done
    obtain ⟨values, each, rfl⟩ := Except.of_map done
    exact .sequence (itemsImage_itemsToJson each)
  | mapping entries =>
    rw [toJson] at done
    obtain ⟨table, each, rfl⟩ := Except.of_map done
    obtain ⟨members, rfl, image⟩ := entriesImage_entriesToJson each
    exact .mapping image
  | tagged tag value =>
    rw [toJson] at done
    exact .tagged tag (image_toJson done)

theorem itemsImage_itemsToJson {items : List Value} {values : List Json} (done : itemsToJson items = .ok values) :
    ItemsImage (Table.insertAll []) items values := by
  cases items with
  | nil =>
    cases done
    exact .nil
  | cons item rest =>
    rw [itemsToJson] at done
    obtain ⟨first, one, done⟩ := Except.of_bind done
    obtain ⟨others, more, done⟩ := Except.of_bind done
    cases done
    exact .cons (image_toJson one) (itemsImage_itemsToJson more)

theorem entriesImage_entriesToJson {entries : List (Value × Value)} {object table : Table Json}
    (done : entriesToJson object entries = .ok table) :
    ∃ members, table = Table.insertAll object members ∧ EntriesImage (Table.insertAll []) entries members := by
  cases entries with
  | nil =>
    cases done
    exact ⟨[], rfl, .nil⟩
  | cons entry rest =>
    obtain ⟨key, value⟩ := entry
    rw [entriesToJson] at done
    obtain ⟨name, text, done⟩ := Except.of_bind done
    obtain ⟨member, one, done⟩ := Except.of_bind done
    obtain ⟨members, same, image⟩ := entriesImage_entriesToJson done
    exact ⟨(name, member) :: members, same, .cons text (image_toJson one) image⟩
end

variable {gather : Table Json → Table Json} {entries : List (Value × Value)} {members : Table Json}

theorem EntriesImage.mem_keys_iff (image : EntriesImage gather entries members) {name : String} :
    name ∈ Table.keys members ↔ ∃ entry ∈ entries, entry.1.keyText = .ok name := by
  induction entries generalizing members with
  | nil =>
    cases image
    exact iff_of_false nofun nofun
  | cons entry rest ih =>
    cases image with
    | cons text first others =>
      rw [Table.keys_cons, List.mem_cons, List.exists_mem_cons_iff, ih others, text, Except.ok.injEq, eq_comm]

/-- The members have different names when the keys have different texts. -/
theorem EntriesImage.distinct_iff (image : EntriesImage gather entries members) :
    Table.Distinct members ↔ DifferentTexts entries := by
  induction entries generalizing members with
  | nil =>
    cases image
    exact iff_of_true List.nodup_nil List.Pairwise.nil
  | cons entry rest ih =>
    cases image with
    | @cons key value name json _ members text first others =>
      have fresh : name ∉ Table.keys members ↔
          ∀ other ∈ rest, ∀ text, key.keyText = .ok text → other.1.keyText ≠ .ok text := by
        rw [others.mem_keys_iff, text]
        simp
      rw [Table.Distinct, Table.keys_cons, List.nodup_cons, ← Table.Distinct, ih others, fresh]
      unfold DifferentTexts
      rw [List.pairwise_cons]

theorem textsDistinct_sequence {items : List Value} :
    (sequence items).TextsDistinct ↔ ∀ item ∈ items, item.TextsDistinct := by
  constructor
  · exact fun distinct item member entries reached => distinct entries (.item member reached)
  · intro each entries reached
    cases reached with
    | item member further => exact each _ member entries further

theorem textsDistinct_mapping : (mapping entries).TextsDistinct ↔
    DifferentTexts entries ∧ ∀ entry ∈ entries, entry.2.TextsDistinct := by
  constructor
  · exact fun distinct => ⟨distinct entries (.here _), fun entry member inner reached =>
      distinct inner (.entry member reached)⟩
  · rintro ⟨here, each⟩ inner reached
    cases reached with
    | here => exact here
    | entry member further => exact each _ member inner further

theorem textsDistinct_tagged {tag : String} {value : Value} : (tagged tag value).TextsDistinct ↔ value.TextsDistinct := by
  constructor
  · exact fun distinct entries reached => distinct entries (.tagged reached)
  · intro distinct entries reached
    cases reached with
    | tagged further => exact distinct entries further

mutual
/-- Where the keys have different texts, inserting the members keeps them all. -/
theorem Image.kept {value : Value} {json : Json} (image : value.Image (Table.insertAll []) json)
    (distinct : value.TextsDistinct) : value.Image id json := by
  cases image with
  | null => exact .null
  | bool b => exact .bool b
  | int n h => exact .int n h
  | float x => exact .float x
  | string text => exact .string text
  | sequence each => exact .sequence (each.kept (textsDistinct_sequence.mp distinct))
  | @mapping entries members each =>
    obtain ⟨here, inside⟩ := textsDistinct_mapping.mp distinct
    have whole : Table.insertAll [] members = members := Table.insertAll_of_distinct (each.distinct_iff.mpr here)
    rw [whole]
    exact .mapping (each.kept inside)
  | tagged tag inner => exact .tagged tag (inner.kept (textsDistinct_tagged.mp distinct))

theorem ItemsImage.kept {items : List Value} {values : List Json} (image : ItemsImage (Table.insertAll []) items values)
    (distinct : ∀ item ∈ items, item.TextsDistinct) : ItemsImage id items values := by
  cases image with
  | nil => exact .nil
  | cons first others =>
    obtain ⟨one, more⟩ := List.forall_mem_cons.mp distinct
    exact .cons (first.kept one) (others.kept more)

theorem EntriesImage.kept {entries : List (Value × Value)} {members : Table Json}
    (image : EntriesImage (Table.insertAll []) entries members) (distinct : ∀ entry ∈ entries, entry.2.TextsDistinct) :
    EntriesImage id entries members := by
  cases image with
  | nil => exact .nil
  | cons text first others =>
    obtain ⟨one, more⟩ := List.forall_mem_cons.mp distinct
    exact .cons text (first.kept one) (others.kept more)
end

mutual
/-- An object that names no entry twice has a member for every entry only when the keys have different texts. -/
theorem Image.textsDistinct {value : Value} {json : Json} (image : value.Image id json) (distinct : json.KeysDistinct) :
    value.TextsDistinct := by
  cases image with
  | null => exact nofun
  | bool b => exact nofun
  | int n h => exact nofun
  | float x => exact nofun
  | string text => exact nofun
  | sequence each => exact textsDistinct_sequence.mpr (each.textsDistinct distinct)
  | mapping each => exact textsDistinct_mapping.mpr ⟨each.distinct_iff.mp distinct.1, each.textsDistinct distinct.2⟩
  | tagged tag inner => exact textsDistinct_tagged.mpr (inner.textsDistinct distinct)

theorem ItemsImage.textsDistinct {items : List Value} {values : List Json} (image : ItemsImage id items values)
    (distinct : Json.ItemsKeysDistinct values) : ∀ item ∈ items, item.TextsDistinct := by
  cases image with
  | nil => exact nofun
  | cons first others =>
    exact List.forall_mem_cons.mpr ⟨first.textsDistinct distinct.1, others.textsDistinct distinct.2⟩

theorem EntriesImage.textsDistinct {entries : List (Value × Value)} {members : Table Json}
    (image : EntriesImage id entries members) (distinct : Json.FieldsKeysDistinct members) :
    ∀ entry ∈ entries, entry.2.TextsDistinct := by
  cases image with
  | nil => exact nofun
  | cons text first others =>
    exact List.forall_mem_cons.mpr ⟨first.textsDistinct distinct.1, others.textsDistinct distinct.2⟩
end

/-- There is no JSON form exactly when a key is a collection or a number is not finite, at any depth. A JSON form has, for
every mapping, the object that results from inserting the entries in order; it has a member for each of them exactly when no
mapping has two keys with one text. -/
theorem toJson_entries (value : Value) :
    ((∃ error, value.toJson = .error error) ↔ ∃ inner, value.Reached inner ∧ inner.Unwritable) ∧
    ∀ json, value.toJson = .ok json →
      value.Image (Table.insertAll []) json ∧ (value.Image id json ↔ value.TextsDistinct) :=
  ⟨fails_toJson value, fun _ done => ⟨image_toJson done, fun image => image.textsDistinct (keysDistinct_toJson done),
    fun distinct => (image_toJson done).kept distinct⟩⟩

/-- Keys of three kinds, one of them under a tag; and a number next to the text that it has. -/
theorem toJson_entries_number :
    (mapping [(int 200 (by decide), string "a"), (tagged "!key" (bool true), mapping [(null, string "b")])]).Image id
      (.object [("200", .string "a"), ("true", .object [("null", .string "b")])]) ∧
    ¬ (mapping [(int 200 (by decide), string "a"), (string "200", string "b")]).Image id (.object [("200", .string "b")]) := by
  refine ⟨((toJson_entries _).2 _ rfl).2.mpr ?_, mt ((toJson_entries _).2 _ rfl).2.mp ?_⟩
  · have inner : (mapping [(null, string "b")]).TextsDistinct :=
      textsDistinct_mapping.mpr ⟨List.pairwise_singleton _ _, List.forall_mem_singleton.mpr nofun⟩
    refine textsDistinct_mapping.mpr ⟨List.pairwise_pair.mpr ?_, List.forall_mem_cons.mpr ⟨nofun, ?_⟩⟩
    · rintro text ⟨⟩ same
      exact absurd (Except.ok.inj same) (by decide)
    · exact List.forall_mem_singleton.mpr inner
  · intro distinct
    exact (List.pairwise_pair.mp (textsDistinct_mapping.mp distinct).1) "200" rfl rfl

end Value

end Yaml

end Schemata
