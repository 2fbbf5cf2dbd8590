import Schemata.Proofs.Pass.NullableAcceptance
import Schemata.Proofs.Table

namespace Schemata

theorem Json.isOfType_null_iff {x : Json} : x.IsOfType "null" ↔ x = .null := by
  constructor
  · rintro ⟨tag, named, holds⟩
    obtain rfl : TypeTag.null = tag := Option.some.inj named
    cases x with
    | number n => cases whole : n.isWhole <;> simp [Json.hasType, tag, whole] at holds
    | null => rfl
    | _ => cases holds
  · rintro rfl
    exact ⟨.null, rfl, rfl⟩

theorem Json.equal_null_iff {x : Json} : Json.null.equal x ↔ x = .null := by
  cases x <;> simp [equal]

theorem Json.same_null_iff {x : Json} : x.same .null ↔ x = .null := by
  cases x <;> simp [same]

namespace NodeOf

/-- A set flag admits null besides what the node asks for without it; a flag that is not set asks nothing. -/
def AcceptsFlagged (I : Interpretation) (n : NodeOf (Json → Prop)) (x : Json) : Prop :=
  match n.nullable with
  | some (.valid true) => x = .null ∨ Accepts I { n with nullable := none } x
  | some (.valid false) => Accepts I { n with nullable := none } x
  | _ => n.Accepts I x

/-- A flagged node can be widened to null: its type is well formed, and if it has one, null is up to `type` and `enum`
and to keywords that ask nothing of null. -/
structure Widenable {S : Type} (I : Interpretation) (n : NodeOf S) : Prop where
  types : ∀ value, n.types ≠ some (.malformed value)
  const : n.types.isSome → n.const = none
  reference : n.types.isSome → n.reference = none
  allOf : n.types.isSome → n.allOf = none
  anyOf : n.types.isSome → n.anyOf = none
  oneOf : n.types.isSome → n.oneOf = none
  not : n.types.isSome → n.not = none
  condition : n.types.isSome → n.condition = none
  enum : n.types.isSome → ∀ value, n.enum ≠ some (.malformed value)
  extra : n.types.isSome → ∀ field ∈ n.extra, I.keyword field.1 field.2 .null

/-- Where there is a type, the keywords whose values have the wrong shape ask nothing of null. -/
def SparesNull {S : Type} (I : Interpretation) (n : NodeOf S) : Prop :=
  n.types.isSome → ∀ misfit ∈ n.misfits, I.misshapen misfit.1 misfit.2 .null

variable {I : Interpretation} {x : Json}

theorem Widenable.map {S T : Type} {n : NodeOf S} (widenable : n.Widenable I) (f : S → T) : (n.map f).Widenable I where
  types := widenable.types
  const := widenable.const
  reference := widenable.reference
  allOf typed := congrArg (Option.map _) (widenable.allOf typed)
  anyOf typed := congrArg (Option.map _) (widenable.anyOf typed)
  oneOf typed := congrArg (Option.map _) (widenable.oneOf typed)
  not typed := congrArg (Option.map _) (widenable.not typed)
  condition typed := congrArg (Option.map _) (widenable.condition typed)
  enum := widenable.enum
  extra := widenable.extra

theorem mem_withNull {types : TypeNames} {name : String} :
    name ∈ (withNull types).names ↔ name ∈ types.names ∨ name = "null" := by
  unfold withNull
  split
  · rename_i present
    rw [List.contains_iff_mem] at present
    exact ⟨Or.inl, fun either => either.elim id fun same => same ▸ present⟩
  · simp [TypeNames.names]

theorem exists_isOfType_withNull {types : TypeNames} :
    (∃ name ∈ (withNull types).names, x.IsOfType name) ↔ (∃ name ∈ types.names, x.IsOfType name) ∨ x = .null := by
  simp only [mem_withNull, or_and_right, exists_or, exists_eq_left, Json.isOfType_null_iff]

theorem exists_equal_withNull {values : List Json} :
    (∃ value ∈ if values.any (·.same .null) then values else values ++ [.null], value.equal x) ↔
      (∃ value ∈ values, value.equal x) ∨ x = .null := by
  split
  · rename_i present
    obtain ⟨value, member, same⟩ := List.any_eq_true.mp present
    obtain rfl := Json.same_null_iff.mp same
    refine ⟨Or.inl, fun either => either.elim id ?_⟩
    rintro rfl
    exact ⟨_, member, Json.equal_null_iff.mpr rfl⟩
  · simp only [List.mem_append, List.mem_singleton, or_and_right, exists_or, exists_eq_left, Json.equal_null_iff]

/-- Keywords that describe ask nothing, so they may be left out. -/
theorem accepts_undescribed {m : NodeOf (Json → Prop)}
    (described : ∀ key value x, onlyDescribes key → I.keyword key value x) :
    Accepts I { m with extra := m.extra.filter fun (key, _) => !onlyDescribes key } x ↔ m.Accepts I x := by
  have patterns : (m.extra.filter fun (key, _) => !onlyDescribes key).lookup "patternProperties" =
      m.extra.lookup "patternProperties" := Table.lookup_filter (fun key => !onlyDescribes key) _ _
  have declares (name : String) :
      Declares I { m with extra := m.extra.filter fun (key, _) => !onlyDescribes key } name ↔ m.Declares I name := by
    simp only [Declares, patterns]
  refine accepts_congr rfl ⟨fun met => ?_, fun met => ?_⟩
  · exact { met with
      additionalProperties := fun other given fields object field member undeclared =>
        met.additionalProperties other given fields object field member (mt (declares field.1).mp undeclared)
      extra := by
        intro field member
        by_cases describes : onlyDescribes field.1
        · exact described _ _ _ describes
        · exact met.extra field (List.mem_filter.mpr ⟨member, by simpa using describes⟩) }
  · exact { met with
      additionalProperties := fun other given fields object field member undeclared =>
        met.additionalProperties other given fields object field member (mt (declares field.1).mpr undeclared)
      extra := fun field member => met.extra field (List.mem_of_mem_filter member) }

/-- The node with null among its types and among its `enum` values. -/
def widened {S : Type} (names : TypeNames) (n : NodeOf S) : NodeOf S :=
  { n with types := some (.valid (withNull names)), enum := n.enum.map enumWithNull }

section

variable {m : NodeOf (Json → Prop)} {names : TypeNames}

theorem misfits_widened (typed : m.types = some (.valid names)) : (m.widened names).misfits = m.misfits := by
  rcases enum : m.enum with - | (values | value) <;> simp only [misfits, widened, typed, enum] <;> rfl

theorem enum_widened (wellFormed : ∀ value, m.enum ≠ some (.malformed value)) :
    (∀ values, (m.widened names).enum = some (.valid values) → ∃ value ∈ values, value.equal x) ↔
      (∀ values, m.enum = some (.valid values) → ∃ value ∈ values, value.equal x) ∨ x = .null := by
  simp only [widened]
  rcases enum : m.enum with - | (values | value)
  · simp
  · simp only [Option.map_some, enumWithNull, Option.some.injEq, Slot.valid.injEq, forall_eq',
      exists_equal_withNull]
  · exact absurd enum (wellFormed value)

/-- The other keywords of a widenable node ask nothing of null. -/
theorem meets_widened_null (widenable : m.Widenable I) (spares : m.SparesNull I)
    (typed : m.types = some (.valid names)) : (m.widened names).Meets I .null := by
  have present : m.types.isSome := Option.isSome_of_eq_some typed
  exact
    { types := by
        rintro _ ⟨⟩
        exact exists_isOfType_withNull.mpr (Or.inr rfl)
      const := fun value given => by cases (widenable.const present).symm.trans given
      enum := (enum_widened (widenable.enum present)).mpr (Or.inr rfl)
      properties := nofun
      required := nofun
      additionalProperties := nofun
      single := nofun
      positional := nofun
      additionalItems := nofun
      allOf := fun members given => by cases (widenable.allOf present).symm.trans given
      anyOf := fun members given => by cases (widenable.anyOf present).symm.trans given
      oneOf := fun members given => by cases (widenable.oneOf present).symm.trans given
      not := fun forbidden given => by cases (widenable.not present).symm.trans given
      consequent := fun guard branch given => by cases (widenable.condition present).symm.trans given
      alternative := fun guard branch given => by cases (widenable.condition present).symm.trans given
      misshapen := misfits_widened typed ▸ spares present
      extra := widenable.extra present }

/-- Widening a node admits null and nothing else. -/
theorem accepts_widened (widenable : m.Widenable I) (spares : m.SparesNull I)
    (typed : m.types = some (.valid names)) : (m.widened names).Accepts I x ↔ x = .null ∨ m.Accepts I x := by
  have present : m.types.isSome := Option.isSome_of_eq_some typed
  have own (text : String) : m.reference ≠ some (.valid text) := by
    rw [widenable.reference present]
    nofun
  have meets : (m.widened names).Accepts I x ↔ (m.widened names).Meets I x := accepts_iff_meets own
  rw [meets, accepts_iff_meets own]
  constructor
  · intro met
    by_cases null : x = .null
    · exact Or.inl null
    · exact Or.inr { met with
        types := by
          intro names' given
          cases typed.symm.trans given
          exact (exists_isOfType_withNull.mp (met.types _ rfl)).resolve_right null
        enum := ((enum_widened (widenable.enum present)).mp met.enum).resolve_right null
        misshapen := misfits_widened typed ▸ met.misshapen }
  · rintro (rfl | met)
    · exact meets_widened_null widenable spares typed
    · exact { met with
        types := by
          rintro _ ⟨⟩
          exact exists_isOfType_withNull.mpr (Or.inl (met.types names typed))
        enum := (enum_widened (widenable.enum present)).mpr (Or.inl met.enum)
        misshapen := misfits_widened typed ▸ met.misshapen }

/-- What a node asks after its flag is resolved is what the flag says. -/
theorem resolved_iff_acceptsFlagged (described : ∀ key value x, onlyDescribes key → I.keyword key value x)
    (widenable : m.nullable = some (.valid true) → m.Widenable I ∧ m.SparesNull I) :
    m.Resolved I x ↔ m.AcceptsFlagged I x := by
  unfold AcceptsFlagged
  split
  · rename_i flag
    obtain ⟨widenable, spares⟩ := widenable flag
    rw [accepts_withoutNullable flag]
    rcases types : m.types with - | (names | value)
    · have annotations : ∀ field ∈ m.extra, onlyDescribes field.1 → I.keyword field.1 field.2 x :=
        fun field _ describes => described field.1 field.2 x describes
      rw [resolved_untyped flag types, accepts_undescribed described, Json.isOfType_null_iff]
      exact and_iff_right annotations
    · exact (resolved_typed flag types).trans (accepts_widened widenable spares types)
    · exact absurd types (widenable.types value)
  · rename_i flag
    rw [accepts_withoutNullable flag]
    exact resolved_plain fun given => by cases flag.symm.trans given
  · rename_i unset _
    exact resolved_plain fun given => absurd given unset

end

end NodeOf

namespace Schema

variable {I : Interpretation} {schema : Schema} {x : Json}

/-- The schema accepts the value when flags are read as they are written. -/
def AcceptsFlagged (I : Interpretation) : Schema → Json → Prop :=
  fold (fun value _ => value) I.malformed (NodeOf.AcceptsFlagged I)

theorem acceptsResolved_eq (described : ∀ key value x, onlyDescribes key → I.keyword key value x)
    (widenable : schema.Every .auxiliary fun n =>
      n.nullable = some (.valid true) → n.Widenable I ∧ n.SparesNull I) :
    schema.AcceptsResolved I = schema.AcceptsFlagged I := by
  induction schema using lowering_pure.induction with
  | bool value =>
    funext x
    simp only [AcceptsResolved, normalizeNullable, mapNodes_bool, Noted.pure_value, Accepts, AcceptsFlagged, fold]
  | malformed value =>
    funext x
    simp only [AcceptsResolved, normalizeNullable, mapNodes_malformed, Noted.pure_value, Accepts, AcceptsFlagged, fold]
  | node n ih =>
    obtain ⟨here, below⟩ := every_node.mp widenable
    have same : ∀ s ∈ n.subschemas .auxiliary, s.AcceptsResolved I = s.AcceptsFlagged I :=
      fun s member => ih s member (below s member)
    rw [NodeOf.subschemas_auxiliary, List.forall_mem_append] at same
    have images : n.map (AcceptsResolved I) = n.map (AcceptsFlagged I) := NodeOf.mapBoth_congr same.1 same.2
    funext x
    refine propext ((acceptsResolved_iff I n x).trans ?_)
    rw [images, AcceptsFlagged, fold_node]
    refine NodeOf.resolved_iff_acceptsFlagged described fun flag => ?_
    obtain ⟨widenable, spares⟩ := here flag
    refine ⟨widenable.map _, fun typed => ?_⟩
    rw [NodeOf.misfits_map]
    exact spares typed

/-- The nullable pass changes no meaning, where the flagged nodes can be widened: whatever references are taken to ask,
a value is accepted when flags are read as they are written exactly when draft 7 accepts it after the pass. -/
theorem accepts_normalizeNullable (described : ∀ key value x, onlyDescribes key → I.keyword key value x)
    (widenable : schema.Every .auxiliary fun n =>
      n.nullable = some (.valid true) → n.Widenable I ∧ n.SparesNull I) (x : Json) :
    schema.AcceptsFlagged I x ↔ schema.normalizeNullable.value.Accepts I x :=
  iff_of_eq (congrFun (acceptsResolved_eq described widenable) x).symm

/-- A widenable node inside a negation: null is what the flag admits, so it is what the negation forbids. -/
theorem accepts_normalizeNullable_negated :
    let I : Interpretation := ⟨fun _ _ => True, fun _ _ _ => True, fun _ _ _ => True, fun _ _ => True, fun _ _ => False⟩
    let on : Node :=
      { types := some (.valid (.single "string")), enum := some (.valid [.string "on"]), nullable := some (.valid true) }
    let negated : Node := { not := some (.node on) }
    (∀ key value x, onlyDescribes key → I.keyword key value x) ∧
      ((Schema.node negated).Every .auxiliary fun n =>
        n.nullable = some (.valid true) → n.Widenable I ∧ n.SparesNull I) ∧
      ¬ (Schema.node negated).normalizeNullable.value.Accepts I .null := by
  intro I on negated
  have described : ∀ key value x, onlyDescribes key → I.keyword key value x := fun _ _ _ _ => trivial
  have widenable : (Schema.node negated).Every .auxiliary fun n =>
      n.nullable = some (.valid true) → n.Widenable I ∧ n.SparesNull I := by
    refine every_node.mpr ⟨nofun, fun s member => ?_⟩
    obtain rfl : s = .node on := List.mem_singleton.mp member
    refine every_node.mpr ⟨fun _ => ⟨?_, fun _ => nofun⟩, nofun⟩
    constructor
    case reference | const | allOf | anyOf | oneOf | not | condition => exact fun _ => rfl
    all_goals nofun
  refine ⟨described, widenable, fun accepted => ?_⟩
  have flagged := (accepts_normalizeNullable described widenable .null).mpr accepted
  rw [AcceptsFlagged, fold_node] at flagged
  have met : NodeOf.Meets I (negated.map (AcceptsFlagged I)) .null := flagged
  refine met.not _ rfl ?_
  rw [AcceptsFlagged, fold_node]
  exact Or.inl rfl

/-- A value of the wrong shape may ask something of null, and the pass leaves it where it is: the text `true` of
`required` is such a value, next to a type. -/
theorem not_accepts_normalizeNullable_misshapen :
    ¬ ∀ (I : Interpretation) (schema : Schema), (∀ key value x, onlyDescribes key → I.keyword key value x) →
      (schema.Every .auxiliary fun n => n.nullable = some (.valid true) → n.Widenable I) →
      ∀ x, schema.AcceptsFlagged I x ↔ schema.normalizeNullable.value.Accepts I x := by
  intro claim
  let I : Interpretation :=
    ⟨fun _ _ => True, fun _ _ _ => True, fun _ _ x => x ≠ .null, fun _ _ => True, fun _ _ => False⟩
  let n : Node :=
    { types := some (.valid (.single "string")), required := some (.malformed (.bool true))
      nullable := some (.valid true) }
  have widenable : (Schema.node n).Every .auxiliary fun n => n.nullable = some (.valid true) → n.Widenable I := by
    refine every_node.mpr ⟨fun _ => ?_, nofun⟩
    constructor
    case reference | const | allOf | anyOf | oneOf | not | condition => exact fun _ => rfl
    all_goals nofun
  have flagged : (Schema.node n).AcceptsFlagged I .null := by
    rw [AcceptsFlagged, fold_node]
    exact Or.inl rfl
  have accepted := (claim I (.node n) (fun _ _ _ _ => trivial) widenable .null).mp flagged
  have resolved := (acceptsResolved_iff I n .null).mp accepted
  have met : NodeOf.Meets I ((n.map (AcceptsResolved I)).widened (.single "string")) .null := resolved
  exact met.misshapen ("required", .bool true) (List.mem_singleton_self _) rfl

end Schema

end Schemata
