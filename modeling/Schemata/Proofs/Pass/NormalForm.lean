import Schemata.Document.Normalize
import Schemata.Proofs.Pass.Conditional
import Schemata.Proofs.Pass.Const
import Schemata.Proofs.Pass.Nullable
import Schemata.Proofs.Pass.Reference
import Schemata.Proofs.Pass.Tuple

namespace Schemata

namespace NodeOf

/-- What a conjunction combines are its subschemas. -/
theorem subschemas_everyOf (members : List Schema) : (everyOf members).subschemas .auxiliary = members := by
  simp [everyOf, subschemas_auxiliary, subschemas_keywords, declared, elements, listed]

theorem subschemas_negation (schema : Schema) : (negation schema).subschemas .auxiliary = [schema] := by
  simp [negation, subschemas_auxiliary, subschemas_keywords, declared, elements, listed]

/-- A subschema of the rewritten node was there before, or is the choice. -/
theorem subschemas_unconditional {n : Node} {reach : Reach} {choice s : Schema}
    (member : s ∈ subschemas reach { n with
      allOf := some (.valid (listed n.allOf ++ [choice])), condition := none, consequent := none,
      alternative := none }) : s ∈ n.subschemas reach ∨ s = choice := by
  have near : s ∈ subschemas .keywords { n with
      allOf := some (.valid (listed n.allOf ++ [choice])), condition := none, consequent := none,
      alternative := none } → s ∈ n.subschemas .keywords ∨ s = choice := by
    simp only [subschemas_keywords, listed, Option.toList_none, List.append_nil, List.mem_append, List.mem_singleton,
      or_assoc]
    rintro (h | h | h | h | h | h | h | h) <;> simp only [h, true_or, or_true]
  cases reach with
  | keywords => exact near member
  | auxiliary =>
    rw [subschemas_auxiliary] at member ⊢
    rcases List.mem_append.mp member with inside | outside
    · exact (near inside).imp_left (List.mem_append_left _)
    · exact Or.inl (List.mem_append_right _ outside)

end NodeOf

namespace Pass

/-- How far the pass walks. -/
def reach : Pass → Reach
  | .const => .keywords
  | _ => .auxiliary

/-- The pass finds nothing to do at the node. -/
def Normal : Pass → Node → Prop
  | .references, n => ∀ text, n.reference = some (.valid text) → Reference.canonical? text = none
  | .const, n => n.const.isSome → n.types.isSome ∧ n.enum.isSome
  | .tuples, n => ∀ schemas, n.prefixItems = some (.valid schemas) → ∃ positions, n.items = some (.positional positions)
  | .conditionals, n => n.condition.isSome → ∃ value, n.allOf = some (.malformed value)
  | .nullable, n => ∀ flag, n.nullable = some (.valid flag) → flag = true ∧ ∃ value, n.types = some (.malformed value)
  | .webhooks, _ => True

/-- The schema is in the normal form of the pass, as far as the pass walks. -/
def NormalForm (pass : Pass) (schema : Schema) : Prop := schema.Every pass.reach pass.Normal

variable {pass : Pass} {n : Node}

/-- A node without the keywords that the passes are about is normal. -/
theorem normal_of_absent (pass : Pass) (reference : n.reference = none) (const : n.const = none)
    (prefixItems : n.prefixItems = none) (condition : n.condition = none) (nullable : n.nullable = none) :
    pass.Normal n := by
  cases pass <;> simp [Normal, reference, const, prefixItems, condition, nullable]

theorem normal_mapReach (pass : Pass) (reach : Reach) (f : Schema → Schema) (n : Node) (normal : pass.Normal n) :
    pass.Normal (n.mapReach reach f) := by
  cases pass with
  | tuples =>
    intro schemas given
    have before : ∃ schemas, n.prefixItems = some (.valid schemas) := by
      rcases own : n.prefixItems with - | (before | value) <;>
        cases reach <;> simp [NodeOf.mapReach, NodeOf.mapBoth, own, Slot.map] at given ⊢
    obtain ⟨before, same⟩ := before
    obtain ⟨positions, positional⟩ := normal before same
    cases reach <;> exact ⟨positions.map f, by simp [NodeOf.mapReach, NodeOf.mapBoth, positional, Items.map]⟩
  | conditionals =>
    intro given
    have before : n.condition.isSome := by
      cases reach <;> simpa [NodeOf.mapReach, NodeOf.mapBoth] using given
    obtain ⟨value, malformed⟩ := normal before
    cases reach <;> exact ⟨value, by simp [NodeOf.mapReach, NodeOf.mapBoth, malformed, Slot.map]⟩
  | references => cases reach <;> exact normal
  | const => cases reach <;> exact normal
  | nullable => cases reach <;> exact normal
  | webhooks => trivial

section

variable {members : List Schema} {schema condition : Schema} {branch consequent alternative : Option Schema}

theorem normalForm_everyOf (normal : ∀ s ∈ members, pass.NormalForm s) :
    pass.NormalForm (.node (NodeOf.everyOf members)) := by
  refine Schema.every_node.mpr ⟨normal_of_absent pass rfl rfl rfl rfl rfl, fun s member => ?_⟩
  have inside := NodeOf.mem_auxiliary_of_mem member
  rw [NodeOf.subschemas_everyOf] at inside
  exact normal s inside

theorem normalForm_negation (normal : pass.NormalForm schema) : pass.NormalForm (.node (NodeOf.negation schema)) := by
  refine Schema.every_node.mpr ⟨normal_of_absent pass rfl rfl rfl rfl rfl, fun s member => ?_⟩
  have inside := NodeOf.mem_auxiliary_of_mem member
  rw [NodeOf.subschemas_negation] at inside
  exact List.mem_singleton.mp inside ▸ normal

theorem normalForm_choice (extra : List (String × Json)) (normal : ∀ s ∈ members, pass.NormalForm s) :
    pass.NormalForm (.node { anyOf := some (.valid members), extra }) := by
  refine Schema.every_node.mpr ⟨normal_of_absent pass rfl rfl rfl rfl rfl, fun s member => ?_⟩
  rw [NodeOf.subschemas_choice] at member
  exact normal s member

theorem normalForm_guarded (guard : pass.NormalForm condition) (normal : ∀ s, branch = some s → pass.NormalForm s) :
    pass.NormalForm (NodeOf.guarded condition branch) := by
  cases branch with
  | none => exact guard
  | some branch =>
    refine normalForm_everyOf fun s member => ?_
    rcases List.mem_pair.mp member with rfl | rfl
    · exact guard
    · exact normal _ rfl

theorem normalForm_branches (guard : pass.NormalForm condition) (first : ∀ s, consequent = some s → pass.NormalForm s)
    (second : ∀ s, alternative = some s → pass.NormalForm s) :
    pass.NormalForm (.node (NodeOf.branches condition consequent alternative)) := by
  refine normalForm_choice [] fun s member => ?_
  rcases List.mem_pair.mp member with rfl | rfl
  · exact normalForm_guarded guard first
  · exact normalForm_guarded (normalForm_negation guard) second

end

theorem normal_redirect (n : Node) : Normal .references (Noted.ofOption n (n.redirect? [])).value := by
  rw [NodeOf.redirect_value]
  intro text given
  obtain ⟨slot, own, image⟩ := Option.map_eq_some_iff.mp given
  rcases slot with before | value
  · simp only [Slot.map, Reference.target?_nil] at image
    obtain rfl := Slot.valid.inj image
    cases moved : Reference.canonical? before with
    | none => exact moved
    | some target => exact Reference.canonical?_of_canonical? moved
  · cases image

theorem normal_completeConst (n : Node) : Normal .const n.completeConst.value := by
  cases present : n.const with
  | none =>
    rw [NodeOf.completeConst_of_none present]
    intro given
    rw [present] at given
    cases given
  | some value =>
    rw [NodeOf.completeConst_value present]
    exact fun _ => ⟨rfl, rfl⟩

theorem normal_positionalItems (n : Node) : Normal .tuples (Noted.ofOption n n.positionalItems?).value := by
  cases changed : n.positionalItems? with
  | some n' =>
    obtain ⟨schemas, -, -, rfl⟩ := NodeOf.positionalItems_cases changed
    intro schemas given
    cases given
  | none =>
    intro schemas given
    change n.prefixItems = _ at given
    rcases own : n.items with - | (positions | schema)
    · simp [NodeOf.positionalItems?, given, own] at changed
    · exact ⟨positions, own⟩
    · simp [NodeOf.positionalItems?, given, own] at changed

theorem normal_unconditional (n : Node) : Normal .conditionals (Noted.ofOption n n.unconditional?).value := by
  cases changed : n.unconditional? with
  | some n' =>
    obtain ⟨condition, -, -, rfl⟩ := NodeOf.unconditional_cases changed
    intro given
    cases given
  | none =>
    intro given
    obtain ⟨condition, present⟩ := Option.isSome_iff_exists.mp given
    change n.condition = _ at present
    rcases own : n.allOf with - | (members | value)
    · simp [NodeOf.unconditional?, present, own] at changed
    · simp [NodeOf.unconditional?, present, own] at changed
    · exact ⟨value, own⟩

theorem normal_resolveNullable (n : Node) : Normal .nullable (Noted.ofOption n n.resolveNullable?).value := by
  cases changed : n.resolveNullable? with
  | some n' =>
    intro flag given
    change n'.nullable = _ at given
    rcases NodeOf.resolveNullable_cases changed with ⟨-, rfl⟩ | ⟨-, ⟨types, -, rfl⟩ | ⟨-, ⟨-, rfl⟩ | ⟨-, rfl⟩⟩⟩ <;>
      cases given
  | none =>
    intro flag given
    change n.nullable = _ at given
    cases flag with
    | false => simp [NodeOf.resolveNullable?, given] at changed
    | true =>
      refine ⟨rfl, ?_⟩
      rw [NodeOf.resolveNullable?, given] at changed
      rcases own : n.types with - | (types | value)
      · simp only [NodeOf.admitNull?, own] at changed
        split at changed <;> cases changed
      · simp only [NodeOf.admitNull?, own] at changed
        cases changed
      · exact ⟨value, own⟩

theorem settled_ofOption {step : Node → Option Node} (unchanged : step n = none) :
    Schema.Settled (fun n => Noted.ofOption n (step n)) n := by
  rw [Schema.Settled, unchanged]
  exact ⟨rfl, rfl⟩

theorem settled_redirect (normal : Normal .references n) :
    Schema.Settled (fun n => Noted.ofOption n (n.redirect? [])) n := by
  refine settled_ofOption ?_
  cases changed : n.redirect? [] with
  | none => rfl
  | some n' =>
    obtain ⟨reference, target, given, moved, -, -⟩ := NodeOf.redirect_cases changed
    rw [Reference.target?_nil, normal reference given] at moved
    cases moved

theorem settled_completeConst (normal : Normal .const n) : Schema.Settled NodeOf.completeConst n := by
  rw [Schema.Settled]
  cases present : n.const with
  | none =>
    rw [NodeOf.completeConst_of_none present]
    exact ⟨rfl, rfl⟩
  | some value =>
    obtain ⟨types, enum⟩ := normal (Option.isSome_of_eq_some present)
    obtain ⟨slot, types⟩ := Option.isSome_iff_exists.mp types
    obtain ⟨slot', enum⟩ := Option.isSome_iff_exists.mp enum
    constructor
    · obtain ⟨⟩ := n
      cases present
      cases types
      cases enum
      rfl
    · simp only [NodeOf.completeConst, present, types, enum, Option.isNone_some, Bool.or_false]

theorem settled_unconditional (normal : Normal .conditionals n) :
    Schema.Settled (fun n => Noted.ofOption n n.unconditional?) n := by
  refine settled_ofOption ?_
  cases present : n.condition with
  | none => simp only [NodeOf.unconditional?, present]
  | some condition =>
    obtain ⟨value, malformed⟩ := normal (Option.isSome_of_eq_some present)
    simp only [NodeOf.unconditional?, present, malformed]

theorem honest_ofOption (step : Node → Option Node) : Schema.Honest fun n => Noted.ofOption n (step n) := by
  intro n unchanged
  cases changed : step n with
  | none => simp only [changed, Noted.ofOption]
  | some n' =>
    simp only [changed, Noted.ofOption] at unchanged
    cases unchanged

theorem honest_completeConst : Schema.Honest NodeOf.completeConst := by
  intro n unchanged
  cases present : n.const with
  | none => rw [NodeOf.completeConst_of_none present]
  | some value =>
    have complete : n.types.isNone = false ∧ n.enum.isNone = false := by
      simpa only [NodeOf.completeConst, present, Bool.or_eq_false_iff] using unchanged
    have normal : Pass.Normal .const n := by
      intro _
      simpa using complete
    exact (settled_completeConst normal).1

/-- The transformation is a walk with the step. The step makes a node normal, leaves a normal node as it is, and reports
what it changes. -/
structure Walks (pass : Pass) (transform : Schema → Noted Schema) (step : Node → Noted Node) : Prop where
  eq_mapNodes : ∀ schema, transform schema = schema.mapNodes pass.reach step
  lowering : Schema.Lowering step
  normal : ∀ n, pass.Normal (step n).value
  settled : ∀ n, pass.Normal n → Schema.Settled step n
  honest : Schema.Honest step

theorem exists_walks {transform : Schema → Noted Schema} (given : pass.transform? = some transform) :
    ∃ step, pass.Walks transform step := by
  cases pass with
  | references =>
    cases given
    exact ⟨_, fun _ => rfl, Schema.lowering_redirect [], normal_redirect, fun _ => settled_redirect, honest_ofOption _⟩
  | const =>
    cases given
    exact ⟨_, fun _ => rfl, Schema.lowering_completeConst, normal_completeConst, fun _ => settled_completeConst,
      honest_completeConst⟩
  | tuples =>
    cases given
    exact ⟨_, fun _ => rfl, Schema.lowering_positionalItems, normal_positionalItems,
      fun _ normal => settled_ofOption (NodeOf.positionalItems_eq_none normal), honest_ofOption _⟩
  | conditionals =>
    cases given
    exact ⟨_, fun _ => rfl, Schema.lowering_unconditional, normal_unconditional, fun _ => settled_unconditional,
      honest_ofOption _⟩
  | nullable =>
    cases given
    exact ⟨_, fun _ => rfl, Schema.lowering_resolveNullable, normal_resolveNullable,
      fun _ normal => settled_ofOption (NodeOf.resolveNullable_eq_none normal), honest_ofOption _⟩
  | webhooks => cases given

/-- A pass leaves every schema in its normal form. -/
theorem normalForm_transform {transform : Schema → Noted Schema} (given : pass.transform? = some transform)
    (schema : Schema) : pass.NormalForm (transform schema).value := by
  obtain ⟨step, walks⟩ := exists_walks given
  rw [walks.eq_mapNodes]
  exact walks.lowering.every_of_step (normal_mapReach pass) walks.normal schema

/-- A pass leaves a schema in its normal form as it is, and reports no change. -/
theorem NormalForm.transform_eq {transform : Schema → Noted Schema} (given : pass.transform? = some transform)
    {schema : Schema} (normal : pass.NormalForm schema) :
    (transform schema).value = schema ∧ (transform schema).changed = false := by
  obtain ⟨step, walks⟩ := exists_walks given
  rw [walks.eq_mapNodes]
  exact walks.lowering.mapNodes_of_settled fun n inside => walks.settled n (normal n inside)

/-- The later pass leaves no new work for the earlier one. -/
def SparedBy (earlier later : Pass) : Prop :=
  ∀ transform, later.transform? = some transform → ∀ schema, earlier.NormalForm schema →
    earlier.NormalForm (transform schema).value

/-- A step that keeps the node normal, and the schemas below it, keeps the normal form. -/
theorem NormalForm.of_step {n' : Node} (normal : pass.NormalForm (.node n)) (here : pass.Normal n → pass.Normal n')
    (below : ∀ s ∈ n'.subschemas pass.reach, s ∈ n.subschemas pass.reach ∨ pass.NormalForm s) :
    pass.NormalForm (.node n') := by
  obtain ⟨own, inner⟩ := Schema.every_node.mp normal
  refine Schema.every_node.mpr ⟨here own, fun s member => ?_⟩
  rcases below s member with before | fresh
  · exact inner s before
  · exact fresh

theorem NormalForm.subschema (normal : pass.NormalForm (.node n)) {s : Schema}
    (member : s ∈ n.subschemas pass.reach) : pass.NormalForm s :=
  (Schema.every_node.mp normal).2 s member

theorem sparedBy_const (here : ∀ n : Node, pass.Normal n → pass.Normal n.completeConst.value) :
    pass.SparedBy .const := by
  rintro _ ⟨⟩ schema normal
  refine Schema.lowering_completeConst.every_mapNodes (normal_mapReach pass)
    (fun n (normal : pass.NormalForm (.node n)) => ?_) normal
  refine normal.of_step (here n) fun s member => Or.inl ?_
  cases present : n.const with
  | none => rwa [NodeOf.completeConst_of_none present] at member
  | some value =>
    rw [NodeOf.completeConst_value present] at member
    exact member

theorem sparedBy_tuples
    (here : ∀ (n : Node) (schemas : List Schema) (later : Option Schema), pass.Normal n →
      pass.Normal { n with prefixItems := none, items := some (.positional schemas), additionalItems := later }) :
    pass.SparedBy .tuples := by
  rintro _ ⟨⟩ schema normal
  refine Schema.lowering_positionalItems.every_mapNodes (normal_mapReach pass)
    (fun n (normal : pass.NormalForm (.node n)) => ?_) normal
  cases changed : n.positionalItems? with
  | none => exact normal
  | some n' =>
    refine normal.of_step (fun own => ?_) fun s member => ?_
    · obtain ⟨schemas, -, -, rfl⟩ := NodeOf.positionalItems_cases changed
      exact here n schemas n.laterItems own
    · rcases NodeOf.subschemas_positionalItems changed member with before | ⟨far, existing, rest, present, single, rfl⟩
      · exact Or.inl before
      · have near : rest ∈ n.subschemas .keywords := by
          simp [NodeOf.subschemas_keywords, NodeOf.elements, single]
        have beside : existing ∈ n.subschemas .auxiliary := by
          simp [NodeOf.subschemas_auxiliary, present]
        refine Or.inr (normalForm_everyOf fun s member => ?_)
        rcases List.mem_pair.mp member with rfl | rfl
        · exact normal.subschema (far ▸ beside)
        · exact normal.subschema (far ▸ NodeOf.mem_auxiliary_of_mem near)

theorem sparedBy_conditionals
    (here : ∀ (n : Node) (members : List Schema), pass.Normal n →
      pass.Normal { n with
        allOf := some (.valid members), condition := none, consequent := none, alternative := none }) :
    pass.SparedBy .conditionals := by
  rintro _ ⟨⟩ schema normal
  refine Schema.lowering_unconditional.every_mapNodes (normal_mapReach pass)
    (fun n (normal : pass.NormalForm (.node n)) => ?_) normal
  cases changed : n.unconditional? with
  | none => exact normal
  | some n' =>
    obtain ⟨condition, present, -, rfl⟩ := NodeOf.unconditional_cases changed
    have inner (s : Schema) (inside : s ∈ n.subschemas .keywords) : pass.NormalForm s := by
      refine normal.subschema ?_
      cases pass.reach with
      | keywords => exact inside
      | auxiliary => exact NodeOf.mem_auxiliary_of_mem inside
    have choice : pass.NormalForm (.node (NodeOf.branches condition n.consequent n.alternative)) := by
      refine normalForm_branches (inner _ ?_) (fun s branch => inner s ?_) fun s branch => inner s ?_
      · simp [NodeOf.subschemas_keywords, present]
      · simp [NodeOf.subschemas_keywords, branch]
      · simp [NodeOf.subschemas_keywords, branch]
    refine normal.of_step (here n _) fun s member => ?_
    rcases NodeOf.subschemas_unconditional member with before | rfl
    · exact Or.inl before
    · exact Or.inr choice

theorem sparedBy_nullable
    (dropped : ∀ n : Node, pass.Normal n → pass.Normal { n with nullable := none })
    (joined : ∀ (n : Node) (types : TypeNames), pass.Normal n →
      pass.Normal { n with types := some (.valid types), enum := n.enum.map NodeOf.enumWithNull, nullable := none })
    (inner : ∀ n : Node, pass.Normal n → pass.Normal n.withoutFlag) : pass.SparedBy .nullable := by
  rintro _ ⟨⟩ schema normal
  refine Schema.lowering_resolveNullable.every_mapNodes (normal_mapReach pass)
    (fun n (normal : pass.NormalForm (.node n)) => ?_) normal
  cases changed : n.resolveNullable? with
  | none => exact normal
  | some n' =>
    rcases NodeOf.resolveNullable_cases changed with ⟨-, rfl⟩ | ⟨flag, ⟨types, -, rfl⟩ | ⟨-, ⟨-, rfl⟩ | ⟨-, rfl⟩⟩⟩
    · exact normal.of_step (dropped n) fun s member => Or.inl member
    · exact normal.of_step (joined n _) fun s member => Or.inl member
    · refine Schema.every_node.mpr ⟨normal_of_absent pass rfl rfl rfl rfl rfl, fun s member => ?_⟩
      cases reach : pass.reach <;> rw [reach] at member <;> cases member
    · refine normalForm_choice _ fun s member => ?_
      rcases List.mem_pair.mp member with rfl | rfl
      · exact normal.of_step (inner n) fun s member => Or.inl member
      · refine Schema.every_node.mpr ⟨normal_of_absent pass rfl rfl rfl rfl rfl, fun s member => ?_⟩
        cases reach : pass.reach <;> rw [reach] at member <;> cases member

/-- Together with the types, `enum` stays where it was. -/
theorem normal_joined (earlier : pass ≠ .nullable) (n : Node) (types : TypeNames) (normal : pass.Normal n) :
    pass.Normal { n with types := some (.valid types), enum := n.enum.map NodeOf.enumWithNull, nullable := none } := by
  cases pass with
  | const =>
    intro given
    exact ⟨rfl, by simpa using (normal given).2⟩
  | nullable => exact absurd rfl earlier
  | references => exact normal
  | tuples => exact normal
  | conditionals => exact normal
  | webhooks => trivial

theorem normal_dropped (earlier : pass ≠ .nullable) (n : Node) (normal : pass.Normal n) :
    pass.Normal { n with nullable := none } ∧ pass.Normal n.withoutFlag := by
  cases pass with
  | nullable => exact absurd rfl earlier
  | references => exact ⟨normal, normal⟩
  | const => exact ⟨normal, normal⟩
  | tuples => exact ⟨normal, normal⟩
  | conditionals => exact ⟨normal, normal⟩
  | webhooks => exact ⟨trivial, trivial⟩

/-- No pass leaves new work for an earlier one. -/
theorem order_sparedBy : Pass.order.Pairwise SparedBy := by
  have webhooks (pass : Pass) : pass.SparedBy .webhooks := by
    rintro _ ⟨⟩
  have nullable (pass : Pass) (earlier : pass ≠ .nullable) : pass.SparedBy .nullable :=
    sparedBy_nullable (fun n normal => (normal_dropped earlier n normal).1) (normal_joined earlier)
      fun n normal => (normal_dropped earlier n normal).2
  have const : SparedBy .references .const := sparedBy_const fun n normal => by
    cases present : n.const with
    | none => rwa [NodeOf.completeConst_of_none present]
    | some value => rwa [NodeOf.completeConst_value present]
  have referencesTuples : SparedBy .references .tuples := sparedBy_tuples fun n schemas later normal => normal
  have constTuples : SparedBy .const .tuples := sparedBy_tuples fun n schemas later normal => normal
  have referencesConditionals : SparedBy .references .conditionals :=
    sparedBy_conditionals fun n members normal => normal
  have constConditionals : SparedBy .const .conditionals := sparedBy_conditionals fun n members normal => normal
  have tuplesConditionals : SparedBy .tuples .conditionals := sparedBy_conditionals fun n members normal => normal
  simp only [order, List.pairwise_cons, List.forall_mem_cons, List.not_mem_nil, false_implies, implies_true,
    List.Pairwise.nil, and_true]
  exact ⟨⟨const, referencesTuples, referencesConditionals, nullable _ (by decide), webhooks _⟩,
    ⟨constTuples, constConditionals, nullable _ (by decide), webhooks _⟩,
    ⟨tuplesConditionals, nullable _ (by decide), webhooks _⟩, ⟨nullable _ (by decide), webhooks _⟩, webhooks _⟩

end Pass

end Schemata
