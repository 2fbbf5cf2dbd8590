import Schemata.Proofs.TypeScript.Conversion
import Schemata.Proofs.TypeScript.Identifier
import Schemata.Proofs.TypeScript.Reading

namespace Schemata

namespace TsGrammar

variable {inner : Reader TsType} {marks rest written : List Char} {P Q : TsType → Prop}

/-- What may be ahead after an intersection, an operand and an atom. -/
def factorEnds : List Char := '|' :: ends

def operandEnds : List Char := '&' :: factorEnds

def atomEnds : List Char := '[' :: operandEnds

theorem skipBlanks_cons {c : Char} (visible : Json.isBlank c = false) : Json.skipBlanks (c :: rest) = c :: rest := by
  rw [Json.skipBlanks, List.dropWhile_cons_of_neg (by simp [visible])]

theorem ne_of_starts {c : Char} (inside : startsNumeral c ∨ TsText.startsIdentifier c) (mark : Char)
    (other : startsNumeral mark = false ∧ TsText.startsIdentifier mark = false) : c ≠ mark := by
  rintro rfl
  simp [other] at inside

theorem skipBlanks_of_starts {c : Char} (inside : startsNumeral c ∨ TsText.startsIdentifier c) :
    Json.skipBlanks (c :: rest) = c :: rest := by
  refine skipBlanks_cons ?_
  have differs := ne_of_starts inside
  simp [Json.isBlank, differs ' ' (by decide), differs '\t' (by decide), differs '\n' (by decide), differs '\r' (by decide)]

/-- An atom without a mark of its own is a number or a word. -/
theorem atom_cons {c : Char} (inside : startsNumeral c ∨ TsText.startsIdentifier c) :
    atom inner (c :: rest) = if startsNumeral c then numeral (c :: rest) else word inner (c :: rest) := by
  have differs := ne_of_starts inside
  rw [atom, skipBlanks_of_starts inside]
  simp only [differs '"' (by decide), differs '[' (by decide), differs '\x7b' (by decide), differs '(' (by decide),
    if_false]

theorem takes_numeral (numeric : IsNumeral written) {value : Literal} (read : literalOfNumeral? written = some value) :
    Takes (atom inner) written atomEnds (· = .literal value) := by
  obtain ⟨⟨c, others, rfl, starts⟩, each⟩ := numeric
  refine ⟨_, rfl, fun rest ahead => ?_⟩
  obtain ⟨taken, left⟩ := span_of_ahead each ahead (by decide) (by decide)
  rw [List.cons_append, atom_cons (Or.inl starts), if_pos starts, ← List.cons_append, numeral, taken, left, read]
  rfl

theorem identifier_append {name : String} (valid : TsText.isIdentifier name) (ahead : Ahead marks rest)
    (stops : marks.all (!TsText.inIdentifier ·)) : identifier (name.toList ++ rest) = some (name, rest) := by
  obtain ⟨c, others, letters, starts, inside⟩ := TsText.isIdentifier_iff.mp valid
  have each : ∀ d ∈ name.toList, TsText.inIdentifier d := by
    rw [letters]
    refine List.forall_mem_cons.mpr ⟨?_, inside⟩
    simp only [TsText.startsIdentifier, TsText.inIdentifier, Char.isAlphanum, Bool.or_eq_true] at starts ⊢
    tauto
  obtain ⟨taken, left⟩ := span_of_ahead each ahead stops (by decide)
  simp only [identifier, taken, left, String.ofList_toList, valid, if_true]

theorem startsNumeral_of_startsIdentifier {c : Char} (starts : TsText.startsIdentifier c) : startsNumeral c = false := by
  have digits : ∀ value < 10, TsText.startsIdentifier (Char.ofNat (48 + value)) = false := by decide
  rw [Bool.eq_false_iff]
  intro numeral
  simp only [startsNumeral, Bool.or_eq_true, beq_iff_eq] at numeral
  rcases numeral with digit | rfl
  · simp only [Char.isDigit, Bool.and_eq_true, decide_eq_true_eq] at digit
    have first : 48 ≤ c.toNat := UInt32.le_iff_toNat_le.mp digit.1
    have last : c.toNat ≤ 57 := UInt32.le_iff_toNat_le.mp digit.2
    have other := digits (c.toNat - 48) (by omega)
    rw [show 48 + (c.toNat - 48) = c.toNat by omega, Char.ofNat_toNat, starts] at other
    cases other
  · exact absurd starts (by decide)

theorem atom_identifier {name : String} (valid : TsText.isIdentifier name) (ahead : Ahead marks rest)
    (stops : marks.all (!TsText.inIdentifier ·)) :
    atom inner (name.toList ++ rest) = if name = "Record" then recordTypes inner rest else some (ofWord name, rest) := by
  obtain ⟨c, others, letters, starts, -⟩ := TsText.isIdentifier_iff.mp valid
  have whole : atom inner (name.toList ++ rest) = word inner (name.toList ++ rest) := by
    rw [letters, List.cons_append, atom_cons (Or.inr starts), if_neg (by simp [startsNumeral_of_startsIdentifier starts])]
  rw [whole, word, identifier_append valid ahead stops]
  rfl

theorem takes_word {name : String} (valid : TsText.isIdentifier name) (other : name ≠ "Record") :
    Takes (atom inner) name.toList atomEnds (· = ofWord name) := by
  refine ⟨_, rfl, fun rest ahead => ?_⟩
  rw [atom_identifier valid ahead (by decide), if_neg other]

theorem ofWord_of_not_keyword {name : String} (free : name ∉ keywords) : ofWord name = .ref name := by
  simp only [keywords, List.mem_cons, List.not_mem_nil, or_false, not_or] at free
  simp only [ofWord, free, if_false]

/-- A literal is read back, or one that is written like it. -/
theorem takes_literal (value : Literal) (finite : value.Finite) :
    Takes (atom inner) value.text.toList atomEnds fun read => read.Alike (.literal value) := by
  cases value with
  | string value =>
    refine ⟨.literal (.string value), .literal (.refl _), fun rest _ => ?_⟩
    have read : (quoted (value.toList.flatMap Json.escapeChar ++ '"' :: rest)) = some (value, rest) := by
      rw [quoted, Json.readString_quoted]
      rfl
    have text : (Literal.string value).text.toList ++ rest =
        '"' :: (value.toList.flatMap Json.escapeChar ++ '"' :: rest) := by
      simp [Literal.text, Json.quoted]
    have opened : atom inner ('"' :: (value.toList.flatMap Json.escapeChar ++ '"' :: rest)) =
        (quoted (value.toList.flatMap Json.escapeChar ++ '"' :: rest)).map fun value =>
          (.literal (.string value.1), value.2) := rfl
    rw [text, opened, read]
    rfl
  | int value =>
    refine (takes_numeral (isNumeral_toString value) (literalOfNumeral?_toString value)).imp ?_
    rintro _ rfl
    exact .literal (.refl _)
  | number value =>
    obtain ⟨x, rfl⟩ := finite
    obtain ⟨read, found, alike⟩ := literalOfNumeral?_toPlainText x
    refine (takes_numeral (isNumeral_toPlainText x) found).imp ?_
    rintro _ rfl
    exact .literal alike
  | bool value =>
    cases value
    · exact (takes_word (by decide : TsText.isIdentifier "false") (by decide)).imp fun read same =>
        same ▸ .literal (.refl _)
    · exact (takes_word (by decide : TsText.isIdentifier "true") (by decide)).imp fun read same =>
        same ▸ .literal (.refl _)
  | null => exact (takes_word (by decide : TsText.isIdentifier "null") (by decide)).imp fun read same => same ▸ .null

theorem takes_primitive (kind : Primitive) :
    Takes (atom inner) kind.text.toList atomEnds fun read => read.Alike (.primitive kind) := by
  have keyword (name : String) (same : ofWord name = .primitive kind) (valid : TsText.isIdentifier name)
      (other : name ≠ "Record") : Takes (atom inner) name.toList atomEnds fun read => read.Alike (.primitive kind) :=
    (takes_word valid other).imp fun read found => found ▸ same ▸ .primitive kind
  cases kind <;> exact keyword _ rfl (by decide) (by decide)

theorem takes_record {key value : List Char} (skips : SkipsBlank inner) (keys : Takes inner key ends P)
    (values : Takes inner value ends Q) :
    Takes (atom inner) ("Record".toList ++ '<' :: (key ++ ',' :: ' ' :: (value ++ ['>']))) marks fun read =>
      ∃ k v, read = .record k v ∧ P k ∧ Q v := by
  obtain ⟨k, holdsKey, readsKey⟩ := keys
  obtain ⟨v, holdsValue, readsValue⟩ := values
  refine ⟨.record k v, ⟨k, v, rfl, holdsKey, holdsValue⟩, fun rest _ => ?_⟩
  have open' : Ahead ['<'] ('<' :: (key ++ ',' :: ' ' :: (value ++ '>' :: rest))) := ahead_cons (by decide) (by decide)
  have comma : Ahead ends (',' :: ' ' :: (value ++ '>' :: rest)) := ahead_cons (by decide) (by decide)
  have close : Ahead ends ('>' :: rest) := ahead_cons (by decide) (by decide)
  have shape : ("Record".toList ++ '<' :: (key ++ ',' :: ' ' :: (value ++ ['>']))) ++ rest =
      "Record".toList ++ '<' :: (key ++ ',' :: ' ' :: (value ++ '>' :: rest)) := by simp
  rw [shape, atom_identifier (by decide) open' (by decide), if_pos rfl]
  simp only [recordTypes, mark?_cons '<' (by decide), mark?_cons ',' (by decide),
    mark?_cons '>' (by decide), readsKey _ comma, skips _, readsValue _ close, Option.bind_eq_bind,
    Option.bind_some]
  rfl

theorem takes_parenthesis (reads : Takes inner written ends P) :
    Takes (atom inner) ('(' :: (written ++ [')'])) marks P := by
  obtain ⟨value, holds, reads⟩ := reads
  refine ⟨value, holds, fun rest _ => ?_⟩
  have close : Ahead ends (')' :: rest) := ahead_cons (by decide) (by decide)
  have opened : atom inner ('(' :: (written ++ ')' :: rest)) = parenthesis inner (written ++ ')' :: rest) := rfl
  rw [List.cons_append, List.append_assoc, List.singleton_append, opened, parenthesis, reads _ close]
  simp only [mark?_cons ')' (by decide), Option.bind_eq_bind, Option.bind_some]
  rfl

end TsGrammar

end Schemata
