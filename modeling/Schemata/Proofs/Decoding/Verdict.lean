import Schemata.Decoding.Verdict
import Schemata.Proofs.Table

namespace Schemata

namespace Verdict

/-- The names that may stand in a wire form. -/
def wireNames : List String := ["success", "data", "message"]

/-- What reading an entry leaves of the entries read so far. -/
inductive Raw.Enters (raw : Raw Json) : String → Json → Raw Json → Prop
  | success (succeeded : Bool) : Enters raw "success" (.bool succeeded) { raw with succeeded }
  | data (data : Json) : Enters raw "data" data { raw with data := some data }
  | noMessage : Enters raw "message" .null { raw with message := none }
  | message (text : String) : Enters raw "message" (.string text) { raw with message := some text }

/-- What the entries leave, where `raw` stands for those before them: an entry that is there decides, and without one it
stays at what was there before. -/
structure Raw.Holds (raw : Raw Json) (fields : Table Json) (result : Raw Json) : Prop where
  known : ∀ name ∈ Table.keys fields, name ∈ wireNames
  success : fields.lookup "success" = none ∧ result.succeeded = raw.succeeded ∨
    fields.lookup "success" = some (.bool result.succeeded)
  data : fields.lookup "data" = none ∧ result.data = raw.data ∨
    ∃ data, fields.lookup "data" = some data ∧ result.data = some data
  message : fields.lookup "message" = none ∧ result.message = raw.message ∨
    fields.lookup "message" = some .null ∧ result.message = none ∨
    ∃ text, fields.lookup "message" = some (.string text) ∧ result.message = some text

/-- The fields are the wire form of the verdict, but for their order and a message that is null. -/
inductive WireForm (fields : Table Json) : Verdict Json → Prop
  | success {data : Json} (known : ∀ name ∈ Table.keys fields, name ∈ wireNames)
      (succeeded : fields.lookup "success" = some (.bool true)) (present : fields.lookup "data" = some data)
      (silent : fields.lookup "message" = none ∨ fields.lookup "message" = some .null) : WireForm fields (.success data)
  | failure {text : String} (known : ∀ name ∈ Table.keys fields, name ∈ wireNames)
      (failed : fields.lookup "success" = some (.bool false)) (absent : fields.lookup "data" = none)
      (message : fields.lookup "message" = some (.string text)) : WireForm fields (.failure text)

variable {fields : Table Json} {raw result : Raw Json} {name : String} {value : Json} {verdict : Verdict Json}

/-- The entries are read in turn. -/
theorem Raw.putEntries_cons : (Raw.record Shape.value).putEntries raw ((name, value) :: fields) = .ok result ↔
    ∃ next, raw.Enters name value next ∧ (Raw.record Shape.value).putEntries next fields = .ok result := by
  constructor
  · intro read
    by_cases success : name = "success"
    · subst success
      cases value with
      | bool succeeded => exact ⟨_, .success succeeded, read⟩
      | _ => cases read
    by_cases data : name = "data"
    · subst data
      exact ⟨_, .data value, read⟩
    by_cases message : name = "message"
    · subst message
      cases value with
      | null => exact ⟨_, .noMessage, read⟩
      | string text => exact ⟨_, .message text, read⟩
      | _ => cases read
    -- any other name is refused
    have unknown : (Raw.record Shape.value).fields.find? (·.name == name) = none := by
      simp [Raw.record, Ne.symm success, Ne.symm data, Ne.symm message]
    rw [Shape.Record.putEntries, unknown] at read
    cases read
  · rintro ⟨next, enters, read⟩
    cases enters <;> exact read

/-- The entry that is read first and the entries after it, of another name. -/
theorem Raw.holds_cons (fresh : name ∉ Table.keys fields) :
    raw.Holds ((name, value) :: fields) result ↔ ∃ next, raw.Enters name value next ∧ next.Holds fields result := by
  have unread : fields.lookup name = none := Table.lookup_eq_none fresh
  constructor
  · intro holds
    have later : ∀ other ∈ Table.keys fields, other ∈ wireNames :=
      fun other inside => holds.known other (List.mem_cons_of_mem _ inside)
    obtain ⟨known, success, data, message⟩ := holds
    have here := known name List.mem_cons_self
    simp only [wireNames, List.mem_cons, List.not_mem_nil, or_false] at here
    rcases here with rfl | rfl | rfl
    · obtain rfl : value = .bool result.succeeded := by simpa using success
      exact ⟨_, .success _, later, Or.inl ⟨unread, rfl⟩, data, message⟩
    · obtain present : result.data = some value := by simpa using data
      exact ⟨_, .data value, later, success, Or.inl ⟨unread, present⟩, message⟩
    · have present : value = .null ∧ result.message = none ∨
          ∃ text, value = .string text ∧ result.message = some text := by simpa using message
      rcases present with ⟨rfl, silent⟩ | ⟨text, rfl, said⟩
      · exact ⟨_, .noMessage, later, success, data, Or.inl ⟨unread, silent⟩⟩
      · exact ⟨_, .message text, later, success, data, Or.inl ⟨unread, said⟩⟩
  · rintro ⟨next, enters, holds⟩
    have known : ∀ other ∈ name :: Table.keys fields, other ∈ wireNames := by
      refine List.forall_mem_cons.mpr ⟨?_, holds.known⟩
      cases enters <;> decide
    obtain ⟨-, success, data, message⟩ := holds
    cases enters with
    | success succeeded =>
      have same : result.succeeded = succeeded := by simpa [unread] using success
      exact ⟨known, Or.inr (by simp [same]), data, message⟩
    | data =>
      have same : result.data = some value := by simpa [unread] using data
      exact ⟨known, success, Or.inr ⟨value, by simp, same⟩, message⟩
    | noMessage =>
      have same : result.message = none := by simpa [unread] using message
      exact ⟨known, success, data, Or.inr (Or.inl ⟨by simp, same⟩)⟩
    | message text =>
      have same : result.message = some text := by simpa [unread] using message
      exact ⟨known, success, data, Or.inr (Or.inr ⟨text, by simp, same⟩)⟩

/-- Reading all entries leaves what each of them says. -/
theorem Raw.putEntries_eq_ok_iff (distinct : Table.Distinct fields) :
    (Raw.record Shape.value).putEntries raw fields = .ok result ↔ raw.Holds fields result := by
  induction fields generalizing raw with
  | nil =>
    constructor
    · rintro ⟨⟩
      exact ⟨nofun, Or.inl ⟨rfl, rfl⟩, Or.inl ⟨rfl, rfl⟩, Or.inl ⟨rfl, rfl⟩⟩
    · rintro ⟨-, success, data, message⟩
      have same : result = raw := by
        cases result
        simp_all
      exact congrArg Except.ok same.symm
  | cons entry rest ih =>
    obtain ⟨name, value⟩ := entry
    obtain ⟨fresh, others⟩ := List.nodup_cons.mp (show (name :: Table.keys rest).Nodup from distinct)
    simp only [Raw.putEntries_cons, Raw.holds_cons fresh, ih others]

theorem ofRaw_eq_ok_iff : ofRaw raw = .ok verdict ↔
    (∃ data, raw = ⟨true, some data, none⟩ ∧ verdict = .success data) ∨
      ∃ text, raw = ⟨false, none, some text⟩ ∧ verdict = .failure text := by
  obtain ⟨succeeded, data, message⟩ := raw
  cases succeeded <;> cases data <;> cases message <;> simp [ofRaw, eq_comm]

/-- An object is read when its entries are, `success` is among them, and they stand for a verdict. -/
theorem ofJson_object_eq_ok_iff : ofJson Shape.value (.object fields) = .ok verdict ↔
    ∃ raw, (Raw.record Shape.value).putEntries {} fields = .ok raw ∧ "success" ∈ Table.keys fields ∧
      ofRaw raw = .ok verdict := by
  have required : (Raw.record Shape.value).fields.find? (fun field => field.required && !Table.has fields field.name) =
      if "success" ∈ Table.keys fields then none else (Raw.record Shape.value).fields.head? := by
    by_cases present : "success" ∈ Table.keys fields
    · have has : Table.has fields "success" := (Table.lookup_isSome_iff ..).mpr present
      simp [Raw.record, has, present]
    · have has : Table.has fields "success" = false := by
        rw [Table.has, Bool.eq_false_iff, ne_eq, Table.lookup_isSome_iff]
        exact present
      simp [Raw.record, has, present]
  rw [ofJson, Shape.Record.read]
  simp only [required]
  cases entries : (Raw.record Shape.value).putEntries {} fields with
  | error fault => simp [bind, Except.bind]
  | ok raw =>
    by_cases present : "success" ∈ Table.keys fields
    · simp [bind, Except.bind, present, pure, Except.pure]
    · simp [bind, Except.bind, present, Raw.record]

/-- A verdict is read from its wire form, and from nothing else. -/
theorem ofJson_eq_ok_iff_wireForm (distinct : Table.Distinct fields) :
    ofJson Shape.value (.object fields) = .ok verdict ↔ WireForm fields verdict := by
  simp only [ofJson_object_eq_ok_iff, Raw.putEntries_eq_ok_iff distinct, ofRaw_eq_ok_iff]
  constructor
  · rintro ⟨raw, holds, present, read⟩
    obtain ⟨known, success, data, message⟩ := holds
    have given : fields.lookup "success" ≠ none := fun absent => by
      rw [← Table.lookup_isSome_iff, absent] at present
      cases present
    rcases read with ⟨value, rfl, rfl⟩ | ⟨text, rfl, rfl⟩
    · refine .success known (by simpa [given] using success) (by simpa using data) ?_
      simpa using message
    · refine .failure known (by simpa [given] using success) (by simpa using data) ?_
      simpa using message
  · intro wire
    cases wire with
    | @success value known succeeded present silent =>
      refine ⟨⟨true, some value, none⟩, ⟨known, Or.inr succeeded, Or.inr ⟨value, present, rfl⟩, ?_⟩,
        Table.name_mem_keys (Table.mem_of_lookup succeeded), Or.inl ⟨value, rfl, rfl⟩⟩
      rcases silent with absent | null
      · exact Or.inl ⟨absent, rfl⟩
      · exact Or.inr (Or.inl ⟨null, rfl⟩)
    | @failure text known failed absent message =>
      exact ⟨⟨false, none, some text⟩, ⟨known, Or.inr failed, Or.inl ⟨absent, rfl⟩,
        Or.inr (Or.inr ⟨text, message, rfl⟩)⟩, Table.name_mem_keys (Table.mem_of_lookup failed),
        Or.inr ⟨text, rfl, rfl⟩⟩

/-- Entries under the names of a wire form that agree under each of these names differ in their order only. -/
theorem perm_of_wireNames {kept written : Table Json} (distinct : Table.Distinct kept)
    (distinct' : Table.Distinct written)
    (known : ∀ name ∈ Table.keys kept, name ∈ wireNames) (known' : ∀ name ∈ Table.keys written, name ∈ wireNames)
    (same : ∀ name ∈ wireNames, kept.lookup name = written.lookup name) : kept.Perm written := by
  refine Table.perm_of_lookup distinct distinct' fun name => ?_
  by_cases wire : name ∈ wireNames
  · exact same name wire
  · rw [Table.lookup_eq_none (mt (known name) wire), Table.lookup_eq_none (mt (known' name) wire)]

/-- What is written for a verdict that was read is what was read, but for the order and a message that is null. -/
theorem WireForm.written_perm (wire : WireForm fields verdict) (distinct : Table.Distinct fields) :
    ∃ written, verdict.toJson id = .object written ∧ (fields.Perm written ∨
      fields.lookup "message" = some .null ∧ (Table.erase fields "message").Perm written) := by
  cases wire with
  | @success data known succeeded present silent =>
    have written : Table.Distinct [("success", Json.bool true), ("data", data)] :=
      (by decide : ["success", "data"].Nodup)
    refine ⟨_, rfl, ?_⟩
    rcases silent with absent | null
    · refine Or.inl (perm_of_wireNames distinct written known (by simp [wireNames]) ?_)
      exact List.forall_mem_cons.mpr ⟨succeeded, List.forall_mem_cons.mpr ⟨present, List.forall_mem_singleton.mpr absent⟩⟩
    · have erased := Table.erase_sublist fields "message"
      refine Or.inr ⟨null, perm_of_wireNames (distinct.sublist erased) written
        (fun name inside => known name ((erased.map Prod.fst).subset inside)) (by simp [wireNames]) ?_⟩
      have others (name : String) (differ : name ≠ "message") := Table.lookup_erase_of_ne fields differ
      exact List.forall_mem_cons.mpr ⟨(others _ (by decide)).trans succeeded, List.forall_mem_cons.mpr
        ⟨(others _ (by decide)).trans present, List.forall_mem_singleton.mpr (Table.lookup_erase_self distinct _)⟩⟩
  | @failure text known failed absent message =>
    have written : Table.Distinct [("success", Json.bool false), ("message", .string text)] :=
      (by decide : ["success", "message"].Nodup)
    refine ⟨_, rfl, Or.inl (perm_of_wireNames distinct written known (by simp [wireNames]) ?_)⟩
    exact List.forall_mem_cons.mpr ⟨failed, List.forall_mem_cons.mpr ⟨absent, List.forall_mem_singleton.mpr message⟩⟩

theorem wireForm_toJson (verdict : Verdict Json) :
    ∃ written, verdict.toJson id = .object written ∧ Table.Distinct written ∧ WireForm written verdict := by
  cases verdict with
  | success data =>
    exact ⟨_, rfl, (by decide : ["success", "data"].Nodup), .success (by simp [wireNames]) rfl rfl (Or.inl rfl)⟩
  | failure text =>
    exact ⟨_, rfl, (by decide : ["success", "message"].Nodup), .failure (by simp [wireNames]) rfl rfl rfl⟩

/-- The wire form is exact: an object is read as a verdict when its entries are those of the verdict's wire form, in any
order and with a null message at most beside them; what is written for a verdict is read as that verdict; and what is
written for a verdict that was read is what was read, but for the order and the null message. -/
theorem ofJson_exact (fields : Table Json) (distinct : Table.Distinct fields) :
    (∀ verdict, ofJson Shape.value (.object fields) = .ok verdict ↔ WireForm fields verdict) ∧
    (∀ verdict : Verdict Json, ofJson Shape.value (verdict.toJson id) = .ok verdict) ∧
    ∀ verdict, ofJson Shape.value (.object fields) = .ok verdict → ∃ written, verdict.toJson id = .object written ∧
      (fields.Perm written ∨
        fields.lookup "message" = some .null ∧ (Table.erase fields "message").Perm written) := by
  have reading (verdict : Verdict Json) : ofJson Shape.value (.object fields) = .ok verdict ↔ WireForm fields verdict :=
    ofJson_eq_ok_iff_wireForm distinct
  refine ⟨reading, fun verdict => ?_, fun verdict read => ((reading verdict).mp read).written_perm distinct⟩
  obtain ⟨written, form, distinct, wire⟩ := wireForm_toJson verdict
  rw [form]
  exact (ofJson_eq_ok_iff_wireForm distinct).mpr wire

/-- Entries out of order, null data and a null message. -/
theorem ofJson_exact_nullMessage :
    let fields : Table Json := [("message", .null), ("data", .null), ("success", .bool true)]
    Table.Distinct fields ∧ ofJson Shape.value (.object fields) = .ok (.success .null) ∧
      ∃ written, (Verdict.success Json.null).toJson id = .object written ∧
        (Table.erase fields "message").Perm written := by
  intro fields
  have distinct : Table.Distinct fields := (by decide : ["message", "data", "success"].Nodup)
  obtain ⟨read, -, again⟩ := ofJson_exact fields distinct
  have accepted := (read (.success .null)).mpr (.success (by simp [fields, wireNames]) rfl rfl (Or.inr rfl))
  obtain ⟨written, form, same | ⟨-, same⟩⟩ := again _ accepted
  · cases form
    exact absurd same.length_eq (by decide)
  · exact ⟨distinct, accepted, written, form, same⟩

end Verdict

end Schemata
