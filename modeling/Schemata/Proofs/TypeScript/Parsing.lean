import Schemata.Proofs.TypeScript.Operator

namespace Schemata

namespace TsType

open TsGrammar

variable {type element : TsType} {depth : Nat}

inductive AlikePosition : Position → Position → Prop
  | item {a b : TsType} (alike : Alike a b) : AlikePosition (.item a) (.item b)
  | rest {a b : TsType} (alike : Alike a b) : AlikePosition (.rest a) (.rest b)

/-- The positions of a tuple, as they are written. -/
def positionsOf (items : List TsType) (rest : Option TsType) : List Position :=
  items.map .item ++ (rest.map .rest).toList

def positionChars : Position → List Char
  | .item type => type.chars
  | .rest element => '.' :: '.' :: '.' :: (array element).chars

theorem chars_tuple (items : List TsType) (rest : Option TsType) : (tuple items rest).chars =
    '[' :: ([',', ' '].intercalate ((positionsOf items rest).map positionChars) ++ [']']) := by
  have shown : (texts items).map String.toList = (items.map Position.item).map positionChars := by
    rw [texts_eq, List.map_map, List.map_map]
    rfl
  cases rest with
  | none =>
    rw [chars, text, String.toList_append, String.toList_append, String.toList_intercalate, List.map_append, shown,
      positionsOf, List.map_append]
    rfl
  | some element =>
    have last : ("..." ++ parenthesized element.isCombination element.text ++ "[]").toList =
        positionChars (.rest element) := by
      rw [positionChars, chars_array, operandChars, String.toList_append, String.toList_append, toList_parenthesized]
      rfl
    rw [chars, text, String.toList_append, String.toList_append, String.toList_intercalate, List.map_append, shown,
      positionsOf, List.map_append, List.map_singleton, last]
    rfl

theorem takes_item (readable : Readable type) (enough : type.chars.length < depth) :
    Takes (position (TsGrammar.type depth)) type.chars [',', ']'] (AlikePosition · (.item type)) := by
  obtain ⟨value, alike, reads⟩ := (readable.nested enough).mono (by simp [ends] : [',', ']'] ⊆ ends)
  refine ⟨.item value, .item alike, fun rest ahead => ?_⟩
  have read := reads rest ahead
  have plain : Text.after? ['.', '.', '.'] (Json.skipBlanks (type.chars ++ rest)) = none := by
    cases first : Json.skipBlanks (type.chars ++ rest) with
    | nil => rfl
    | cons c others =>
      have other : ¬ '.' = c := by
        rintro rfl
        rw [type_eq_none first (by decide) depth] at read
        cases read
      rw [Text.after?, if_neg other]
  rw [position, plain, read]
  rfl

theorem takes_rest (readable : Readable element) (enough : (array element).chars.length < depth) :
    Takes (position (TsGrammar.type depth)) (positionChars (.rest element)) [',', ']']
      (AlikePosition · (.rest element)) := by
  obtain ⟨value, alike, reads⟩ := ((readable_array readable).nested enough).mono (by simp [ends] : [',', ']'] ⊆ ends)
  cases alike with
  | array alike =>
    refine ⟨.rest _, .rest alike, fun rest ahead => ?_⟩
    have dots : Text.after? ['.', '.', '.'] (Json.skipBlanks (positionChars (.rest element) ++ rest)) =
        some ((array element).chars ++ rest) := rfl
    rw [position, dots]
    simp only [reads rest ahead, Option.bind_eq_bind, Option.bind_some]
    rfl

theorem tupleParts?_of_alike {read : List Position} {items : List TsType} {rest : Option TsType}
    (all : List.Forall₂ AlikePosition read (positionsOf items rest)) : ∃ items' rest',
      tupleParts? read = some (items', rest') ∧ List.Forall₂ Alike items' items ∧ Option.Rel Alike rest' rest := by
  induction items generalizing read with
  | nil =>
    cases rest with
    | none =>
      cases all
      exact ⟨[], none, rfl, .nil, .none⟩
    | some element =>
      cases all with
      | cons last nothing =>
        cases nothing
        cases last with
        | rest alike => exact ⟨[], _, rfl, .nil, .some alike⟩
  | cons item items ih =>
    cases all with
    | cons first others =>
      cases first with
      | item alike =>
        obtain ⟨items', rest', parts, alikeItems, alikeRest⟩ := ih others
        refine ⟨_ :: items', rest', ?_, .cons alike alikeItems, alikeRest⟩
        rw [tupleParts?, parts]
        rfl

theorem eq_cons_of_mark? {mark : Char} {text rest : List Char} (found : mark? mark text = some rest) :
    Json.skipBlanks text = mark :: rest := by
  rw [mark?] at found
  split at found
  · cases found
  · rename_i c others there
    split at found
    · rename_i same
      cases found
      rw [there, same]
    · cases found

/-- What starts a list of parts is not its end. -/
theorem mark?_eq_none_of_separated {α : Type} {part : Reader α} {mark sep : Char} {text : List Char}
    {read : List α × List Char} (none : ∀ rest, Json.skipBlanks text = mark :: rest → part text = none)
    (reads : separated sep part text = some read) : mark? mark text = Option.none := by
  cases found : mark? mark text with
  | none => rfl
  | some rest =>
    rw [separated, none rest (eq_cons_of_mark? found)] at reads
    cases reads

theorem takes_position {items : List TsType} {rest : Option TsType} (each : ∀ item ∈ items, Readable item)
    (others : ∀ element ∈ rest, Readable element) {p : Position} (member : p ∈ positionsOf items rest)
    (short : (positionChars p).length < depth) :
    Takes (position (TsGrammar.type depth)) (positionChars p) [',', ']'] (AlikePosition · p) := by
  rcases List.mem_append.mp member with item | last
  · obtain ⟨type, listed, rfl⟩ := List.mem_map.mp item
    exact takes_item (each type listed) short
  · obtain ⟨element, given, rfl⟩ := Option.map_eq_some_iff.mp (Option.mem_toList.mp last)
    refine takes_rest (others element given) ?_
    simp only [positionChars, List.length_cons] at short
    omega

theorem length_positionChars_lt {items : List TsType} {rest : Option TsType} {p : Position}
    (member : p ∈ positionsOf items rest) : (positionChars p).length < (tuple items rest).chars.length := by
  have inside := length_le_length_intercalate [',', ' '] (List.mem_map_of_mem (f := positionChars) member)
  rw [chars_tuple, List.length_cons, List.length_append]
  omega

theorem readable_tuple {items : List TsType} {rest : Option TsType} (each : ∀ item ∈ items, Readable item)
    (others : ∀ element ∈ rest, Readable element) : Readable (tuple items rest) := by
  intro depth enough
  have parts : ∀ p ∈ positionsOf items rest, Takes (position (TsGrammar.type depth)) (positionChars p) [',', ']']
      (AlikePosition · p) :=
    fun p member => takes_position each others member ((length_positionChars_lt member).trans_le enough)
  refine .of_atom ?_
  rw [chars_tuple]
  cases written : positionsOf items rest with
  | nil =>
    obtain ⟨rfl, rfl⟩ : items = [] ∧ rest = none := by
      cases items <;> cases rest <;> simp [positionsOf] at written ⊢
    exact ⟨.tuple [] none, .tuple .nil .none, fun _ _ => rfl⟩
  | cons first more =>
    rw [written] at parts
    obtain ⟨read, all, reads⟩ := takes_separated opens_comma (skipsBlank_position depth) (by decide : ',' ∉ [']']) parts
    rw [← written] at all
    obtain ⟨items', rest', made, alikeItems, alikeRest⟩ := tupleParts?_of_alike all
    refine ⟨.tuple items' rest', .tuple alikeItems alikeRest, fun rest _ => ?_⟩
    generalize [',', ' '].intercalate ((first :: more).map positionChars) = body at reads
    have read := reads (']' :: rest) (ahead_cons rfl List.mem_cons_self)
    have opened : atom (TsGrammar.type depth) ('[' :: (body ++ ']' :: rest)) =
        TsGrammar.tuple (TsGrammar.type depth) (body ++ ']' :: rest) := rfl
    have nonempty : mark? ']' (body ++ ']' :: rest) = none := by
      refine mark?_eq_none_of_separated (fun others closed => ?_) read
      have dots : Text.after? ['.', '.', '.'] (']' :: others) = none := rfl
      rw [position, closed, dots, type_eq_none closed (by decide)]
      rfl
    rw [List.cons_append, List.append_assoc, List.singleton_append, opened, TsGrammar.tuple, nonempty, read]
    simp only [made, mark?_cons ']' rfl, Option.bind_eq_bind, Option.bind_some]
    rfl

def propertyChars (p : Property) : List Char := (propertyText p).toList

theorem chars_object (first : Property) (others : List Property) : (object (first :: others)).chars =
    '\x7b' :: ' ' :: ([';', ' '].intercalate ((first :: others).map propertyChars) ++ [' ', '\x7d']) := by
  rw [chars, text, propertyTexts_eq, String.toList_append, String.toList_append, String.toList_intercalate, List.map_map]
  rfl

theorem key_append {name : String} {rest : List Char} (ahead : Ahead ['?', ':'] rest) :
    key ((TsText.key name).toList ++ rest) = some (name, rest) := by
  unfold TsText.key
  split
  · rename_i valid
    obtain ⟨c, others, letters, starts, -⟩ := TsText.isIdentifier_iff.mp valid
    have blank : Json.skipBlanks (name.toList ++ rest) = name.toList ++ rest := by
      rw [letters]
      exact skipBlanks_of_starts (Or.inr starts)
    have unquoted : mark? '"' (name.toList ++ rest) = none := by
      rw [mark?, blank, letters]
      exact if_neg (ne_of_starts (Or.inr starts) '"' (by decide))
    rw [key, unquoted, blank]
    exact identifier_append valid ahead (by decide)
  · have shape : (Json.quoted name).toList ++ rest = '"' :: (name.toList.flatMap Json.escapeChar ++ '"' :: rest) := by
      simp [Json.quoted]
    rw [shape, key, mark?_cons '"' rfl]
    simp only [quoted, Json.readString_quoted]
    rfl

theorem takes_property {p : Property} (readable : Readable p.type) (enough : p.type.chars.length < depth) :
    Takes (property (TsGrammar.type depth)) (propertyChars p) [';', '\x7d'] (AlikeProperty · p) := by
  obtain ⟨value, alike, reads⟩ := (readable.nested enough).mono (by simp [ends] : [';', '\x7d'] ⊆ ends)
  obtain ⟨name, type, isOptional, doc⟩ := p
  refine ⟨⟨name, value, isOptional, none⟩, .intro alike, fun rest ahead => ?_⟩
  have shape : propertyChars ⟨name, type, isOptional, doc⟩ ++ rest = (TsText.key name).toList ++
      ((if isOptional then ['?'] else []) ++ ':' :: ' ' :: (type.chars ++ rest)) := by
    cases isOptional <;> simp [propertyChars, propertyText, chars]
  have next : Ahead ['?', ':'] ((if isOptional then ['?'] else []) ++ ':' :: ' ' :: (type.chars ++ rest)) := by
    cases isOptional <;> exact ahead_cons rfl (by decide)
  rw [shape, property, key_append next]
  cases isOptional with
  | true =>
    have asked : mark? '?' ('?' :: ':' :: ' ' :: (type.chars ++ rest)) = some (':' :: ' ' :: (type.chars ++ rest)) := rfl
    simp only [if_true, List.singleton_append, asked, mark?_cons ':' rfl, skipsBlank_type depth _, reads rest ahead,
      Option.bind_eq_bind, Option.bind_some, Option.getD_some]
    rfl
  | false =>
    have asked : mark? '?' (':' :: ' ' :: (type.chars ++ rest)) = none := rfl
    simp only [Bool.false_eq_true, if_false, List.nil_append, asked, mark?_cons ':' rfl, skipsBlank_type depth _,
      reads rest ahead, Option.bind_eq_bind, Option.bind_some, Option.getD_none]
    rfl

theorem readable_object {properties : List Property} (each : ∀ p ∈ properties, Readable p.type) :
    Readable (object properties) := by
  intro depth enough
  refine .of_atom ?_
  cases properties with
  | nil => exact ⟨.object [], .object .nil, fun _ _ => rfl⟩
  | cons first others =>
    have parts : ∀ p ∈ first :: others, Takes (property (TsGrammar.type depth)) (propertyChars p) [';', '\x7d']
        (AlikeProperty · p) := by
      intro p member
      have short := length_le_length_intercalate [';', ' '] (List.mem_map_of_mem (f := propertyChars) member)
      have inside : p.type.chars.length ≤ (propertyChars p).length := by
        simp only [propertyChars, propertyText, chars, String.toList_append, List.length_append]
        omega
      rw [chars_object, List.length_cons, List.length_cons, List.length_append] at enough
      exact takes_property (each p member) (by omega)
    obtain ⟨read, all, reads⟩ := takes_separated opens_semicolon (skipsBlank_property (TsGrammar.type depth))
      (by decide : ';' ∉ ['\x7d']) parts
    refine ⟨.object read, .object all, fun rest _ => ?_⟩
    rw [chars_object]
    generalize [';', ' '].intercalate ((first :: others).map propertyChars) = body at reads
    have read := reads (' ' :: '\x7d' :: rest) (ahead_cons rfl List.mem_cons_self).blank
    have opened : atom (TsGrammar.type depth) ('\x7b' :: ' ' :: (body ++ ' ' :: '\x7d' :: rest)) =
        TsGrammar.object (TsGrammar.type depth) (' ' :: (body ++ ' ' :: '\x7d' :: rest)) := rfl
    have nonempty : mark? '\x7d' (body ++ ' ' :: '\x7d' :: rest) = none := by
      refine mark?_eq_none_of_separated (fun others closed => ?_) read
      have unquoted : mark? '"' (body ++ ' ' :: '\x7d' :: rest) = none := by
        rw [mark?, closed]
        rfl
      rw [property, key, unquoted, closed]
      rfl
    have shape : '\x7b' :: ' ' :: (body ++ [' ', '\x7d']) ++ rest = '\x7b' :: ' ' :: (body ++ ' ' :: '\x7d' :: rest) := by
      simp
    rw [shape, opened, TsGrammar.object, show mark? '\x7d' (' ' :: (body ++ ' ' :: '\x7d' :: rest)) = none from nonempty,
      skipsBlank_separated (skipsBlank_property _), read]
    rfl

theorem readable_of_legible {type : TsType} (every : type.Everywhere Legible) : Readable type := by
  induction every with
  | @intro type here _ ih =>
    cases type with
    | primitive kind => exact readable_of_atom fun inner => takes_primitive kind
    | literal value => exact readable_of_atom fun inner => takes_literal value here
    | array element => exact readable_array (ih element (List.mem_singleton_self element))
    | tuple items rest =>
      obtain ⟨each, others⟩ := List.forall_mem_append.mp ih
      exact readable_tuple each fun element given => others element (Option.mem_toList.mpr given)
    | union members => exact readable_union here ih
    | intersection members => exact readable_intersection here ih
    | object properties => exact readable_object (List.forall_mem_map.mp ih)
    | record key value =>
      obtain ⟨keys, values⟩ := List.forall_mem_cons.mp ih
      exact readable_record keys (values value (List.mem_singleton_self value))
    | ref name => exact readable_ref here

theorem parse?_of_legible {type : TsType} (every : type.Everywhere Legible) :
    ∃ read, parse? type.text = some read ∧ read.Alike type := by
  obtain ⟨read, alike, reads⟩ := (readable_of_legible every).nested (Nat.lt_succ_self _)
  refine ⟨read, ?_, alike⟩
  have whole := reads [] (ahead_nil _)
  rw [List.append_nil] at whole
  rw [parse?, ← String.length_toList]
  change (TsGrammar.type (type.chars.length + 1) type.chars).bind _ = _
  rw [whole]
  rfl

end TsType

namespace SchemaSet

open TsType

/-- The text of the type of a schema or of a value is read back as that type, but for the descriptions of properties, the
kind of numbers with the same digits, and `null`, which is the text of a type and of a literal. -/
theorem parse?_text (set : SchemaSet) :
    (∀ schema, ∃ read, parse? (ofSchema set.typeNames schema).text = some read ∧
      read.Alike (ofSchema set.typeNames schema)) ∧
    ∀ value, ∃ read, parse? (ofJson value).text = some read ∧ read.Alike (ofJson value) :=
  ⟨fun schema => parse?_of_legible (legible_ofSchema set schema),
    fun value => parse?_of_legible (legible_ofJson value)⟩

/-- The type `null` and the literal are written alike, so nothing can read both of them back. -/
theorem not_parse_null :
    let named : Schema := .node { types := some (.valid (.single "null")) }
    let constant : Schema :=
      .node { types := some (.valid (.single "null")), const := some .null, enum := some (.valid [.null]) }
    let set := ofDefinitions [("Named", named), ("Constant", constant)]
    let type := ofSchema set.typeNames
    type named = .primitive .null ∧ type constant = .literal .null ∧ (type named).text = "null" ∧
      (type constant).text = "null" ∧ ¬ ∃ parse : String → Option TsType,
        ∀ definition ∈ set.definitions, parse (type definition.2).text = some (type definition.2) := by
  intro named constant set type
  have first : type named = .primitive .null := by
    rw [show type named = _ from ofSchema_node _ _]
    simp [ofForemost, ofTypeNames, ofTypeName, ofListed, NodeOf.typeNames, Slot.valid?, TypeNames.names, unionOf,
      intersectionOf, unionMembers, intersectionMembers, collect, joined, same, never, unknown]
  have second : type constant = .literal .null := by
    rw [show type constant = _ from ofSchema_node _ _]
    rfl
  have firstText : (type named).text = "null" := by
    rw [first]
    rfl
  have secondText : (type constant).text = "null" := by
    rw [second]
    rfl
  refine ⟨first, second, firstText, secondText, ?_⟩
  rintro ⟨parse, each⟩
  have named' := each ("Named", named) (by simp [set, ofDefinitions])
  have constant' := each ("Constant", constant) (by simp [set, ofDefinitions])
  rw [firstText, first] at named'
  rw [secondText, second, named'] at constant'
  cases constant'

end SchemaSet

end Schemata
