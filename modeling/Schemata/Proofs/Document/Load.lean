import Schemata.Proofs.Document.Normalize

namespace Schemata

theorem Except.of_bind {Fault α β : Type} {first : Except Fault α} {next : α → Except Fault β} {result : β}
    (done : first >>= next = .ok result) : ∃ middle, first = .ok middle ∧ next middle = .ok result := by
  cases first with
  | ok middle => exact ⟨middle, rfl, done⟩
  | error fault => cases done

theorem Except.of_map {Fault α β : Type} {first : Except Fault α} {f : α → β} {result : β}
    (done : first.map f = .ok result) : ∃ middle, first = .ok middle ∧ f middle = result := by
  cases first with
  | ok middle => exact ⟨middle, rfl, Except.ok.inj done⟩
  | error fault => cases done

namespace Json

variable {table fields : Table Json} {name : String} {value : Json}

theorem KeysDistinct.insert (distinct : (Json.object table).KeysDistinct) (inner : value.KeysDistinct) :
    (Json.object (Table.insert table name value)).KeysDistinct := by
  obtain ⟨names, values⟩ := keysDistinct_object.mp distinct
  refine keysDistinct_object.mpr ⟨names.insert name value, fun entry member => ?_⟩
  rcases Table.mem_insert member with old | new
  · exact values entry old
  · rw [new]
    exact inner

theorem KeysDistinct.insertAll (distinct : (Json.object table).KeysDistinct) (inner : FieldsKeysDistinct fields) :
    (Json.object (Table.insertAll table fields)).KeysDistinct := by
  induction fields generalizing table with
  | nil => exact distinct
  | cons field rest ih => exact ih (distinct.insert inner.1) inner.2

theorem keysDistinct_empty : (Json.object []).KeysDistinct := ⟨List.nodup_nil, trivial⟩

/-- The readers with so much fuel give only values in which no object names an entry twice. -/
structure ReadDistinct (fuel : Nat) : Prop where
  value : ∀ {depth text value rest}, readValue fuel depth text = .ok (value, rest) → value.KeysDistinct
  items : ∀ {depth text items rest}, readItems fuel depth text = .ok (items, rest) → ItemsKeysDistinct items
  moreItems : ∀ {depth text items rest}, readMoreItems fuel depth text = .ok (items, rest) → ItemsKeysDistinct items
  fields : ∀ {depth text fields rest}, readFields fuel depth text = .ok (fields, rest) → FieldsKeysDistinct fields
  field : ∀ {depth text fields rest}, readField fuel depth text = .ok (fields, rest) → FieldsKeysDistinct fields
  moreFields : ∀ {depth text fields rest}, readMoreFields fuel depth text = .ok (fields, rest) →
    FieldsKeysDistinct fields

theorem readNumber_distinct {negative : Bool} {text rest : List Char}
    (done : readNumber negative text = .ok (value, rest)) : value.KeysDistinct := by
  unfold readNumber at done
  split at done
  · cases done
    trivial
  · cases done
  · cases done
  · cases done

theorem ReadDistinct.readValue_succ {fuel depth : Nat} {text rest : List Char} (below : ReadDistinct fuel)
    (done : readValue (fuel + 1) depth text = .ok (value, rest)) : value.KeysDistinct := by
  rw [readValue] at done
  split at done
  · cases done
  · rename_i c after blanks
    split_ifs at done
    · obtain ⟨parsed, -, same⟩ := Except.of_map done
      cases same
      trivial
    · obtain ⟨parsed, -, same⟩ := Except.of_map done
      cases same
      trivial
    · obtain ⟨parsed, -, same⟩ := Except.of_map done
      cases same
      trivial
    · exact readNumber_distinct done
    · exact readNumber_distinct done
    · obtain ⟨parsed, -, same⟩ := Except.of_map done
      cases same
      trivial
    · split at done
      · cases done
      · obtain ⟨parsed, items, same⟩ := Except.of_map done
        cases same
        exact below.items items
    · split at done
      · cases done
      · obtain ⟨parsed, fields, same⟩ := Except.of_map done
        cases same
        exact keysDistinct_empty.insertAll (below.fields fields)
    · cases done

theorem ReadDistinct.readItems_succ {fuel depth : Nat} {text rest : List Char} {items : List Json}
    (below : ReadDistinct fuel) (done : readItems (fuel + 1) depth text = .ok (items, rest)) :
    ItemsKeysDistinct items := by
  rw [readItems] at done
  split at done
  · cases done
  · cases done
    trivial
  · obtain ⟨first, value, done⟩ := Except.of_bind done
    obtain ⟨others, values, done⟩ := Except.of_bind done
    cases done
    exact ⟨below.value value, below.moreItems values⟩

theorem ReadDistinct.readMoreItems_succ {fuel depth : Nat} {text rest : List Char} {items : List Json}
    (below : ReadDistinct fuel) (done : readMoreItems (fuel + 1) depth text = .ok (items, rest)) :
    ItemsKeysDistinct items := by
  rw [readMoreItems] at done
  split at done
  · cases done
  · cases done
    trivial
  · split at done
    · cases done
    · cases done
    · obtain ⟨first, value, done⟩ := Except.of_bind done
      obtain ⟨others, values, done⟩ := Except.of_bind done
      cases done
      exact ⟨below.value value, below.moreItems values⟩
  · cases done

theorem ReadDistinct.readFields_succ {fuel depth : Nat} {text rest : List Char} (below : ReadDistinct fuel)
    (done : readFields (fuel + 1) depth text = .ok (fields, rest)) : FieldsKeysDistinct fields := by
  rw [readFields] at done
  split at done
  · cases done
  · split_ifs at done
    · cases done
      trivial
    · exact below.field done
    · cases done

theorem ReadDistinct.readField_succ {fuel depth : Nat} {text rest : List Char} (below : ReadDistinct fuel)
    (done : readField (fuel + 1) depth text = .ok (fields, rest)) : FieldsKeysDistinct fields := by
  rw [readField] at done
  obtain ⟨name, -, done⟩ := Except.of_bind done
  obtain ⟨colon, -, done⟩ := Except.of_bind done
  obtain ⟨first, value, done⟩ := Except.of_bind done
  obtain ⟨others, values, done⟩ := Except.of_bind done
  cases done
  exact ⟨below.value value, below.moreFields values⟩

theorem ReadDistinct.readMoreFields_succ {fuel depth : Nat} {text rest : List Char} (below : ReadDistinct fuel)
    (done : readMoreFields (fuel + 1) depth text = .ok (fields, rest)) : FieldsKeysDistinct fields := by
  rw [readMoreFields] at done
  split at done
  · cases done
  · split_ifs at done
    · cases done
      trivial
    · split at done
      · cases done
      · split_ifs at done
        · exact below.field done
        · cases done
        · cases done
    · cases done

theorem readDistinct (fuel : Nat) : ReadDistinct fuel := by
  induction fuel with
  | zero =>
    -- without fuel, no reader gives anything
    constructor <;> intros <;> rename_i done <;>
      simp [readValue, readItems, readMoreItems, readFields, readField, readMoreFields, faultAt] at done
  | succ fuel below =>
    exact ⟨below.readValue_succ, below.readItems_succ, below.readMoreItems_succ, below.readFields_succ,
      below.readField_succ, below.readMoreFields_succ⟩

theorem keysDistinct_readText {text : List Char} (done : readText text = .ok value) : value.KeysDistinct := by
  obtain ⟨⟨first, rest⟩, whole, done⟩ := Except.of_bind done
  dsimp only at done
  split at done
  · cases done
    exact (readDistinct _).value whole
  · cases done

end Json

namespace Yaml

mutual
theorem Value.keysDistinct_toJson {value : Value} {json : Json} (done : value.toJson = .ok json) :
    json.KeysDistinct := by
  cases value with
  | null =>
    cases done
    trivial
  | bool b =>
    cases done
    trivial
  | int n h =>
    cases done
    trivial
  | float x =>
    cases x with
    | finite x =>
      cases done
      trivial
    | infinite negative => cases done
    | nan => cases done
  | string text =>
    cases done
    trivial
  | sequence items =>
    rw [Value.toJson] at done
    obtain ⟨values, each, same⟩ := Except.of_map done
    cases same
    exact Value.keysDistinct_itemsToJson each
  | mapping entries =>
    rw [Value.toJson] at done
    obtain ⟨fields, each, same⟩ := Except.of_map done
    cases same
    exact Value.keysDistinct_entriesToJson Json.keysDistinct_empty each
  | tagged tag value =>
    rw [Value.toJson] at done
    exact Value.keysDistinct_toJson done

theorem Value.keysDistinct_itemsToJson {items : List Value} {values : List Json}
    (done : Value.itemsToJson items = .ok values) : Json.ItemsKeysDistinct values := by
  cases items with
  | nil =>
    cases done
    trivial
  | cons item rest =>
    rw [Value.itemsToJson] at done
    obtain ⟨first, one, done⟩ := Except.of_bind done
    obtain ⟨others, more, done⟩ := Except.of_bind done
    cases done
    exact ⟨Value.keysDistinct_toJson one, Value.keysDistinct_itemsToJson more⟩

theorem Value.keysDistinct_entriesToJson {entries : List (Value × Value)} {object fields : Table Json}
    (distinct : (Json.object object).KeysDistinct) (done : Value.entriesToJson object entries = .ok fields) :
    (Json.object fields).KeysDistinct := by
  cases entries with
  | nil =>
    cases done
    exact distinct
  | cons entry rest =>
    obtain ⟨key, value⟩ := entry
    rw [Value.entriesToJson] at done
    obtain ⟨name, -, done⟩ := Except.of_bind done
    obtain ⟨member, one, done⟩ := Except.of_bind done
    exact Value.keysDistinct_entriesToJson (distinct.insert (Value.keysDistinct_toJson one)) done
end

end Yaml

namespace Document

/-- Every document that is read from a text, in either format, was made from such a value. -/
theorem parsed_of_read {text : String} {format : DocumentFormat} {document : Document}
    (done : read text format = .ok document) : document.Parsed := by
  obtain ⟨raw, value, same⟩ := Except.of_map done
  refine ⟨raw, ?_, same.symm⟩
  cases format with
  | json =>
    rw [readValue] at value
    split at value
    · rename_i whole
      cases value
      unfold Json.read at whole
      split at whole
      · rename_i text
        cases whole
        exact Json.keysDistinct_readText text
      · cases whole
    · cases value
  | yaml =>
    rw [readValue] at value
    split at value
    · cases value
    · split at value
      · rename_i converted
        cases value
        exact Yaml.Value.keysDistinct_toJson converted
      · cases value

end Document

end Schemata
