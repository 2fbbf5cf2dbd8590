import Schemata.Proofs.Pass.Conditional
import Schemata.Proofs.Pass.Tuple

namespace Schemata

namespace NodeOf

/-- What `prefixItems` asks of the first elements; nothing next to positional `items`, or when it is malformed. -/
def leading? {S : Type} (n : NodeOf S) : Option (List S) :=
  match n.prefixItems, n.items with
  | _, some (.positional _) => none
  | some (.valid schemas), _ => some schemas
  | _, _ => none

/-- What a node with leading schemas asks of a value: each of the first elements has its own schema, and the later ones
meet the single `items` schema and `additionalItems`, where these are present. -/
structure MeetsLeading (I : Interpretation) (n : NodeOf (Json → Prop)) (schemas : List (Json → Prop)) (x : Json) :
    Prop where
  others : Meets I { n with items := none, additionalItems := none } x
  leading : ∀ values, x = .array values → ∀ (i : Nat) (schema : Json → Prop) (value : Json),
    schemas[i]? = some schema → values[i]? = some value → schema value
  single : ∀ every, n.items = some (.single every) → ∀ values, x = .array values →
    ∀ value ∈ values.drop schemas.length, every value
  additional : ∀ later, n.additionalItems = some later → ∀ values, x = .array values →
    ∀ value ∈ values.drop schemas.length, later value

/-- A node with leading schemas is read by position, and every other one by draft 7. -/
def AcceptsLeading (I : Interpretation) (n : NodeOf (Json → Prop)) (x : Json) : Prop :=
  match n.reference, n.leading? with
  | some (.valid reference), _ => I.reference reference x
  | _, some schemas => n.MeetsLeading I schemas x
  | _, none => n.Meets I x

variable {I : Interpretation} {x : Json}

theorem acceptsLeading_of_none {n : NodeOf (Json → Prop)} (none : n.leading? = none) :
    n.AcceptsLeading I x ↔ n.Accepts I x := by
  unfold AcceptsLeading Accepts
  rw [none]
  rcases n.reference with - | (text | value) <;> exact Iff.rfl

theorem accepts_iff_acceptsLeading {n n' : NodeOf (Json → Prop)} {schemas : List (Json → Prop)}
    (reference : n'.reference = n.reference) (given : n.leading? = some schemas)
    (keywords : n'.Meets I x ↔ n.MeetsLeading I schemas x) : n'.Accepts I x ↔ n.AcceptsLeading I x := by
  unfold AcceptsLeading Accepts
  rw [reference, given]
  rcases n.reference with - | (text | value)
  · exact keywords
  · exact Iff.rfl
  · exact keywords

theorem leading?_map {S T : Type} (f : S → T) (n : NodeOf S) : (n.map f).leading? = n.leading?.map (List.map f) := by
  unfold leading?
  simp only [map, mapBoth]
  rcases n.items with - | (positions | every) <;> rcases n.prefixItems with - | (schemas | value) <;> rfl

/-- The pass rewrites exactly the nodes with leading schemas. -/
theorem positionalItems?_eq (n : Node) : n.positionalItems? = n.leading?.map fun schemas =>
    { n with prefixItems := none, items := some (.positional schemas), additionalItems := n.laterItems } := by
  rcases items : n.items with - | (positions | every) <;> rcases given : n.prefixItems with - | (schemas | value) <;>
    simp only [positionalItems?, leading?, items, given, Option.map_none, Option.map_some]

end NodeOf

namespace Schema

variable {I : Interpretation} {x : Json}

/-- The schema accepts the value when tuples are read as they are written. -/
def AcceptsLeading (I : Interpretation) : Schema → Json → Prop :=
  fold (fun value _ => value) I.malformed (NodeOf.AcceptsLeading I)

theorem acceptsLeading_node (n : Node) :
    (Schema.node n).AcceptsLeading I x ↔ (n.map (AcceptsLeading I)).AcceptsLeading I x := by
  rw [AcceptsLeading, fold_node]

theorem acceptsLeading_everyOf (members : List Schema) :
    (Schema.node (NodeOf.everyOf members)).AcceptsLeading I x ↔ ∀ s ∈ members, s.AcceptsLeading I x := by
  rw [acceptsLeading_node, NodeOf.acceptsLeading_of_none rfl]
  exact (NodeOf.accepts_members (members.map (AcceptsLeading I))).trans List.forall_mem_map

/-- The schema for the later elements asks for what `items` and `additionalItems` ask together. -/
theorem acceptsLeading_laterItems {n : Node} (single : ∀ positions, n.items ≠ some (.positional positions)) :
    (∀ s, n.laterItems = some s → s.AcceptsLeading I x) ↔
      (∀ s, n.items = some (.single s) → s.AcceptsLeading I x) ∧
        ∀ s, n.additionalItems = some s → s.AcceptsLeading I x := by
  unfold NodeOf.laterItems
  rcases items : n.items with - | (positions | rest)
  · simp
  · exact absurd items (single positions)
  · cases n.additionalItems with
    | none => simp
    | some existing => simp [acceptsLeading_everyOf, and_comm]

end Schema

namespace NodeOf

variable {I : Interpretation} {n n' : Node} {x : Json}

theorem misfits_positionalItems (changed : n.positionalItems? = some n') : n'.misfits = n.misfits := by
  obtain ⟨schemas, given, -, rfl⟩ := positionalItems_cases changed
  simp only [misfits, given]
  rfl

/-- By draft 7 the rewritten node accepts what the node accepts by position. -/
theorem accepts_positionalItems (changed : n.positionalItems? = some n') :
    (n'.map (Schema.AcceptsLeading I)).Accepts I x ↔ (n.map (Schema.AcceptsLeading I)).AcceptsLeading I x := by
  let R := Schema.AcceptsLeading I
  have shapes := misfits_positionalItems changed
  obtain ⟨-, -, single, -⟩ := positionalItems_cases changed
  rw [n.positionalItems?_eq] at changed
  obtain ⟨schemas, given, rfl⟩ := Option.map_eq_some_iff.mp changed
  have leading : (n.map R).leading? = some (schemas.map R) := by
    rw [leading?_map, given, Option.map_some]
  refine accepts_iff_acceptsLeading rfl leading ⟨fun met => ?_, fun met => ?_⟩
  · have later (values : List Json) (array : x = .array values) (value : Json)
        (member : value ∈ values.drop (schemas.map R).length) : ∀ s, n.laterItems = some s → R s value := by
      intro s given
      exact met.additionalItems _ (R s) rfl (congrArg (Option.map R) given) values array value member
    exact
      { others := { met with
          single := nofun
          positional := nofun
          additionalItems := nofun
          misshapen := by
            have kept := met.misshapen
            rwa [misfits_map, shapes, ← misfits_map R] at kept }
        leading := met.positional _ rfl
        single := by
          intro every given values array value member
          obtain ⟨items, own, image⟩ := Option.map_eq_some_iff.mp given
          cases items with
          | positional positions => cases image
          | single s =>
            cases image
            exact ((Schema.acceptsLeading_laterItems single).mp (later values array value member)).1 s own
        additional := by
          intro other given values array value member
          obtain ⟨s, own, rfl⟩ := Option.map_eq_some_iff.mp given
          exact ((Schema.acceptsLeading_laterItems single).mp (later values array value member)).2 s own }
  · exact { met.others with
      single := nofun
      positional := by
        rintro _ ⟨⟩
        exact met.leading
      additionalItems := by
        rintro _ other ⟨⟩ given values array value member
        obtain ⟨s, own, rfl⟩ := Option.map_eq_some_iff.mp given
        refine (Schema.acceptsLeading_laterItems single).mpr ⟨fun every items => ?_, fun more additional => ?_⟩ s own
        · exact met.single _ (congrArg (Option.map (Items.map R)) items) values array value member
        · exact met.additional _ (congrArg (Option.map R) additional) values array value member
      misshapen := by
        have kept := met.others.misshapen
        change ∀ misfit ∈ (n.map R).misfits, _ at kept
        rwa [misfits_map, ← shapes, ← misfits_map R] at kept }

end NodeOf

namespace Schema

/-- The tuple pass changes no meaning: whatever references, other keywords and values of the wrong shape are taken to
ask, a value is accepted when tuples are read as they are written exactly when draft 7 accepts it after the pass. -/
theorem accepts_normalizeTuples (I : Interpretation) (schema : Schema) (x : Json) :
    schema.normalizeTuples.value.Accepts I x ↔ schema.AcceptsLeading I x := by
  have turned : Accepts I schema.normalizeTuples.value = AcceptsLeading I schema := by
    refine lowering_positionalItems.fold_mapNodes (fun n => funext fun x => propext ?_) schema
    cases changed : n.positionalItems? with
    | none =>
      rw [n.positionalItems?_eq, Option.map_eq_none_iff] at changed
      have none : (n.map (AcceptsLeading I)).leading? = none := by
        rw [NodeOf.leading?_map, changed, Option.map_none]
      exact (NodeOf.acceptsLeading_of_none none).symm
    | some n' => exact NodeOf.accepts_positionalItems changed
  exact iff_of_eq (congrFun turned x)

end Schema

end Schemata
