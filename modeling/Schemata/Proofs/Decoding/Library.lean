import Schemata.Decoding.Compiler
import Schemata.Json.Kind
import Schemata.Json.Printer
import Schemata.Proofs.Json.Members

namespace Schemata

namespace Json

/-- A schema with a table of definitions as the last entry of its root. -/
def carrying (fields table : Table Json) : Json := .object (fields ++ [("definitions", .object table)])

theorem carrying_inj {fields fields' table table' : Table Json} (same : carrying fields table = carrying fields' table') :
    fields = fields' ∧ table = table' := by
  obtain ⟨rest, last⟩ := List.append_inj' (object.inj same) rfl
  cases last
  exact ⟨rest, rfl⟩

/-- An object with a text as its `$ref` stands at the place. -/
def RefersAt (document : Json) (place : Pointer) : Prop :=
  ∃ fields reference, document.resolve? place = some (.object fields) ∧ fields.lookup "$ref" = some (.string reference)

/-- The references of a document lead to the same places in another one, and there stands the same, or it is the root. -/
def SameLeads (leads : Json → Pointer → Pointer → Prop) (document other : Json) : Prop :=
  ∀ place, document.RefersAt place → ∀ target, (leads document place target ↔ leads other place target) ∧
    (leads document place target → target = [] ∨ document.resolve? target = other.resolve? target)

end Json

/-- The place has to do with a definition: it is the definition, stands in it, or is the table that it stands in. -/
def Pointer.Concerns (place : Pointer) (name : String) : Prop :=
  place = ["definitions"] ∨ ["definitions", name] <+: place

/-- What is relied on of a library. It builds the check of a document in three steps: the document is held against the
meta-schema of draft 7, all of it; its identifiers and the other documents that it names are loaded; and what the root
reaches by keywords and references is compiled. -/
structure SchemaLibrary.Behaviour (library : SchemaLibrary) where
  /-- The document meets the meta-schema. -/
  meets : Json → Prop
  /-- The identifiers in the document, and the other documents that it names, can be loaded. -/
  loads : Json → Prop
  /-- Every reference that is reached leads to something, and everything that is reached compiles. -/
  links : Json → Prop
  /-- The reference at the one place of the document leads to the other place of it, whether or not something stands
  there, by itself or by way of other documents. -/
  leads : Json → Pointer → Pointer → Prop
  build_iff (document : Json) :
    (∃ check, library.build document = .ok check) ↔ meets document ∧ loads document ∧ links document
  /-- The meta-schema asks of `definitions` that it is a table of schemas, and of no keyword anything about another. -/
  meets_carrying {fields table : Table Json} (fresh : "definitions" ∉ Table.keys fields) :
    meets (.carrying fields table) ↔ meets (.object fields) ∧ ∀ entry ∈ table, meets entry.2
  /-- One more definition turns references to itself, or leaves them alone. -/
  leads_carrying {fields table : Table Json} {name : String} {schema : Json} (fresh : "definitions" ∉ Table.keys fields)
    (absent : name ∉ Table.keys table) {place : Pointer} (refers : (Json.carrying fields table).RefersAt place)
    (apart : ∀ target, leads (.carrying fields (table ++ [(name, schema)])) place target → ¬ target.Concerns name)
    (target : Pointer) :
    leads (.carrying fields table) place target ↔ leads (.carrying fields (table ++ [(name, schema)])) place target
  /-- Definitions are reached by references alone. -/
  links_carrying {fields table table' : Table Json} (fresh : "definitions" ∉ Table.keys fields)
    (same : (Json.carrying fields table).SameLeads leads (.carrying fields table')) :
    links (.carrying fields table) ↔ links (.carrying fields table')
  /-- Definitions play no part in a check but through references. -/
  accepts_carrying {fields table table' : Table Json} (fresh : "definitions" ∉ Table.keys fields)
    (same : (Json.carrying fields table).SameLeads leads (.carrying fields table'))
    {check check' : Json → List SchemaError} (built : library.build (.carrying fields table) = .ok check)
    (built' : library.build (.carrying fields table') = .ok check') (value : Json) :
    check' value = [] ↔ check value = []

section

variable {fields table : Table Json} {name : String} {schema : Json}

/-- A place that has nothing to do with the last definition is the root, or holds the same without it. -/
theorem Json.resolve?_carrying (fresh : "definitions" ∉ Table.keys fields) (absent : name ∉ Table.keys table)
    (schema : Json) {place : Pointer} (apart : ¬ place.Concerns name) :
    place = [] ∨ (Json.carrying fields table).resolve? place =
      (Json.carrying fields (table ++ [(name, schema)])).resolve? place := by
  cases place with
  | nil => exact Or.inl rfl
  | cons token rest =>
    right
    simp only [carrying, resolve?, member?]
    by_cases entering : token = "definitions"
    · subst entering
      rw [Table.lookup_append_self fresh, Table.lookup_append_self fresh, Option.bind_some, Option.bind_some]
      cases rest with
      | nil => exact absurd (Or.inl rfl) apart
      | cons token rest =>
        have other : token ≠ name := by
          rintro rfl
          exact apart (Or.inr ⟨rest, rfl⟩)
        simp only [resolve?, member?]
        rw [Table.lookup_append_of_ne table other]
    · rw [Table.lookup_append_of_ne fields entering, Table.lookup_append_of_ne fields entering]

namespace SchemaLibrary.Behaviour

variable {library : SchemaLibrary} (behaviour : library.Behaviour)

theorem sameLeads (fresh : "definitions" ∉ Table.keys fields) (absent : name ∉ Table.keys table)
    (apart : ∀ place, (Json.carrying fields table).RefersAt place → ∀ target,
      behaviour.leads (.carrying fields (table ++ [(name, schema)])) place target → ¬ target.Concerns name) :
    (Json.carrying fields table).SameLeads behaviour.leads (.carrying fields (table ++ [(name, schema)])) := by
  intro place refers target
  have alike := behaviour.leads_carrying fresh absent refers (apart place refers) target
  exact ⟨alike, fun leads => Json.resolve?_carrying fresh absent schema (apart place refers target (alike.mp leads))⟩

/-- A document that is built is also built with one more definition that no reference leads to, and accepts the same,
exactly if the definition meets the meta-schema and the identifiers in it and the documents that it names can be loaded. -/
theorem build_append_iff (fresh : "definitions" ∉ Table.keys fields) (absent : name ∉ Table.keys table)
    (apart : ∀ place, (Json.carrying fields table).RefersAt place → ∀ target,
      behaviour.leads (.carrying fields (table ++ [(name, schema)])) place target → ¬ target.Concerns name)
    {check : Json → List SchemaError} (built : library.build (.carrying fields table) = .ok check) :
    (∃ check', library.build (.carrying fields (table ++ [(name, schema)])) = .ok check' ∧
      ∀ value, check' value = [] ↔ check value = []) ↔
    behaviour.meets schema ∧ behaviour.loads (.carrying fields (table ++ [(name, schema)])) := by
  have same := behaviour.sameLeads fresh absent apart
  obtain ⟨meets, -, links⟩ := (behaviour.build_iff _).mp ⟨check, built⟩
  obtain ⟨root, entries⟩ := (behaviour.meets_carrying fresh).mp meets
  constructor
  · rintro ⟨check', built', -⟩
    obtain ⟨meets', loads', -⟩ := (behaviour.build_iff _).mp ⟨check', built'⟩
    exact ⟨((behaviour.meets_carrying fresh).mp meets').2 (name, schema) (by simp), loads'⟩
  · rintro ⟨added, loads'⟩
    have meets' : behaviour.meets (.carrying fields (table ++ [(name, schema)])) :=
      (behaviour.meets_carrying fresh).mpr ⟨root, List.forall_mem_append.mpr ⟨entries, by simpa using added⟩⟩
    obtain ⟨check', built'⟩ := (behaviour.build_iff _).mpr ⟨meets', loads', (behaviour.links_carrying fresh same).mp links⟩
    exact ⟨check', built', behaviour.accepts_carrying fresh same built built'⟩

end SchemaLibrary.Behaviour

end

namespace Miniature

mutual
/-- What is wrong with a schema, by its `minimum` and its `definitions`. -/
def fault? : Json → Option String
  | .object fields => fieldsFault? fields
  | .bool _ => none
  | value => some s!"{value.compact} is not of types \"boolean\", \"object\""

def fieldsFault? : List (String × Json) → Option String
  | [] => none
  | (name, value) :: rest =>
    (if name = "definitions" then tableFault? value else if name = "minimum" then boundFault? value else none).or
      (fieldsFault? rest)

def tableFault? : Json → Option String
  | .object schemas => schemasFault? schemas
  | value => some s!"{value.compact} is not of type \"object\""

def schemasFault? : List (String × Json) → Option String
  | [] => none
  | (_, schema) :: rest => (fault? schema).or (schemasFault? rest)

def boundFault? : Json → Option String
  | .number _ => none
  | value => some s!"{value.compact} is not of type \"number\""
end

/-- The place that a reference names. -/
def place? (reference : String) : Option Pointer := (Text.dropStart? "#" reference).bind Pointer.ofText?

/-- The schema that a document stands for: the one that its root refers to, else the document. -/
def target? (document : Json) : Option Json :=
  match document.get? "$ref" with
  | some (.string reference) => (place? reference).bind document.resolve?
  | _ => some document

def errors (schema value : Json) : List SchemaError :=
  match schema.get? "type" with
  | some (.string name) =>
    if (TypeTag.ofName? name).any value.hasType then []
    else [⟨"", "/type", s!"{value.compact} is not of type \"{name}\""⟩]
  | _ => []

/-- A library that knows the keywords `type`, `minimum` and `definitions`, and at the root a JSON pointer as `$ref`. -/
def library : SchemaLibrary where
  build document :=
    match fault? document with
    | some message => .error message
    | none =>
      match target? document with
      | some schema => .ok (errors schema)
      | none => .error "Pointer does not exist"

/-- The root of the document refers to the place. -/
def Leads (document : Json) (place target : Pointer) : Prop :=
  place = [] ∧ ∃ reference, document.get? "$ref" = some (.string reference) ∧ place? reference = some target

section

variable {fields table table' : Table Json} {name : String}

theorem schemasFault?_eq_none_iff : schemasFault? table = none ↔ ∀ entry ∈ table, fault? entry.2 = none := by
  induction table with
  | nil => simp [schemasFault?]
  | cons entry rest ih => rw [schemasFault?, Option.or_eq_none_iff, ih, List.forall_mem_cons]

theorem fieldsFault?_append (fields more : Table Json) :
    fieldsFault? (fields ++ more) = (fieldsFault? fields).or (fieldsFault? more) := by
  induction fields with
  | nil => rfl
  | cons entry rest ih => rw [List.cons_append, fieldsFault?, fieldsFault?, ih, Option.or_assoc]

theorem fault?_carrying : fault? (.carrying fields table) = none ↔
    fault? (.object fields) = none ∧ ∀ entry ∈ table, fault? entry.2 = none := by
  rw [Json.carrying, fault?, fieldsFault?_append, Option.or_eq_none_iff, fault?, ← schemasFault?_eq_none_iff]
  simp [fieldsFault?, tableFault?]

theorem get?_carrying (differ : name ≠ "definitions") : (Json.carrying fields table).get? name = fields.lookup name :=
  Table.lookup_append_of_ne fields differ _

/-- Both documents stand for the same schema, or each for itself. -/
theorem target?_carrying (same : (Json.carrying fields table).SameLeads Leads (.carrying fields table')) :
    target? (.carrying fields table) = target? (.carrying fields table') ∨
      target? (.carrying fields table) = some (.carrying fields table) ∧
        target? (.carrying fields table') = some (.carrying fields table') := by
  simp only [target?, get?_carrying (show "$ref" ≠ "definitions" by decide)]
  split
  · rename_i reference refers
    cases named : place? reference with
    | none => exact Or.inl rfl
    | some target =>
      have root : (Json.carrying fields table).get? "$ref" = some (.string reference) :=
        (get?_carrying (by decide)).trans refers
      rcases (same [] ⟨_, reference, rfl, root⟩ target).2 ⟨rfl, reference, root, named⟩ with rfl | alike
      · exact Or.inr ⟨rfl, rfl⟩
      · exact Or.inl alike
  · exact Or.inr ⟨rfl, rfl⟩

theorem build_eq_ok_iff {document : Json} {check : Json → List SchemaError} : library.build document = .ok check ↔
    fault? document = none ∧ ∃ schema, target? document = some schema ∧ check = errors schema := by
  simp only [library]
  cases fault? document with
  | some message => simp
  | none => cases target? document <;> simp [eq_comm]

end

/-- It behaves as libraries do. -/
def behaviour : library.Behaviour where
  meets document := fault? document = none
  loads _ := True
  links document := (target? document).isSome
  leads := Leads
  build_iff document := by
    simp only [build_eq_ok_iff, exists_and_left, true_and]
    refine and_congr_right fun _ => ?_
    rw [Option.isSome_iff_exists]
    exact ⟨fun ⟨_, schema, found, _⟩ => ⟨schema, found⟩, fun ⟨schema, found⟩ => ⟨_, schema, found, rfl⟩⟩
  meets_carrying _ := fault?_carrying
  leads_carrying _ _ _ _ _ _ := by simp only [Leads, get?_carrying (show "$ref" ≠ "definitions" by decide)]
  links_carrying _ same := by
    rcases target?_carrying same with alike | ⟨own, own'⟩
    · rw [alike]
    · rw [own, own']
      exact Iff.rfl
  accepts_carrying _ same := by
    intro check check' built built' value
    obtain ⟨-, schema, found, rfl⟩ := build_eq_ok_iff.mp built
    obtain ⟨-, schema', found', rfl⟩ := build_eq_ok_iff.mp built'
    rcases target?_carrying same with alike | ⟨own, own'⟩
    · rw [Option.some.inj (found'.symm.trans (alike.symm.trans found))]
    · obtain rfl := Option.some.inj (found.symm.trans own)
      obtain rfl := Option.some.inj (found'.symm.trans own')
      simp only [errors, get?_carrying (show "type" ≠ "definitions" by decide)]

end Miniature

end Schemata
