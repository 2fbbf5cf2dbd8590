import Schemata.Proofs.Pass.NormalForm
import Schemata.Proofs.Schema.Visit

namespace Schemata

/-- Only the value matters to what comes after, and what was noted before is noted first. -/
theorem Noted.bind_eq_bind {α β γ : Type} {x : Noted α} {y : Noted β} {f : α → Noted γ} {g : β → Noted γ}
    (after : f x.value = g y.value) (changed : x.changed = y.changed) (found : x.found = y.found) :
    x >>= f = y >>= g := by
  change Noted.mk _ _ _ = Noted.mk _ _ _
  rw [after, changed, found]

namespace NodeOf

variable {S T : Type}

theorem subschemas_map (reach : Reach) (f : S → T) (n : NodeOf S) :
    (n.map f).subschemas reach = (n.subschemas reach).map f := by
  obtain ⟨near, far⟩ := subschemas_mapBoth f f n
  cases reach with
  | keywords => exact near
  | auxiliary => rw [subschemas_auxiliary, subschemas_auxiliary, List.map_append, map, near, far]

theorem mapReach_congr {reach : Reach} {f g : S → S} {n : NodeOf S} (same : ∀ s ∈ n.subschemas reach, f s = g s) :
    n.mapReach reach f = n.mapReach reach g := by
  cases reach with
  | keywords => exact mapBoth_congr same fun _ _ => rfl
  | auxiliary =>
    rw [subschemas_auxiliary, List.forall_mem_append] at same
    exact mapBoth_congr same.1 same.2

end NodeOf

namespace Schema

section

variable (reach : Reach) (step : Node → Noted Node)

/-- The run of a walk without a bound: the result for a node comes from the results for the subschemas of what the step
made of it. -/
inductive Walked : Schema → Noted Schema → Prop
  | bool (value : Bool) : Walked (.bool value) (pure (.bool value))
  | malformed (value : Json) : Walked (.malformed value) (pure (.malformed value))
  | node {n : Node} (images : Schema → Noted Schema)
      (below : ∀ s ∈ (step n).value.subschemas reach, Walked s (images s)) :
      Walked (.node n) (do
        let n ← step n
        return .node (← n.replaceChildren reach images))

/-- A schema with what the recursion from the bottom up makes of it. -/
def rebuilt : Schema → Schema × Noted Schema :=
  fold (fun value => (.bool value, pure (.bool value))) (fun value => (.malformed value, pure (.malformed value)))
    fun n => (.node (n.map Prod.fst), do
      let n ← n.replaceChildren reach fun child => do return (← child.2, child.2)
      return .node (← step (n.map Prod.fst)))

/-- The recursion from the bottom up: first the subschemas of a node that are within reach, then the node with what they
became. -/
def bottomUp (schema : Schema) : Noted Schema := (rebuilt reach step schema).2

end

variable {reach : Reach} {step : Node → Noted Node}

theorem rebuilt_fst (schema : Schema) : (rebuilt reach step schema).1 = schema := by
  induction schema using lowering_pure.induction with
  | bool value => rfl
  | malformed value => rfl
  | node n ih =>
    rw [rebuilt, fold_node]
    refine congrArg Schema.node ((NodeOf.mapBoth_mapBoth _ _ _ _ n).trans ?_)
    change ∀ s ∈ n.subschemas .auxiliary, _ at ih
    rw [NodeOf.subschemas_auxiliary, List.forall_mem_append] at ih
    have same : n.mapBoth _ _ = n.mapBoth id id := NodeOf.mapBoth_congr ih.1 ih.2
    exact same.trans (NodeOf.mapBoth_id n)

/-- The recursion from the bottom up, as it unfolds at a node. -/
theorem bottomUp_node (n : Node) : bottomUp reach step (.node n) = (do
    let n ← n.replaceChildren reach (bottomUp reach step)
    return .node (← step n)) := by
  let rebuild (child : Schema × Noted Schema) : Noted (Schema × Noted Schema) := do return (← child.2, child.2)
  have value : ((n.map (rebuilt reach step)).replaceChildren reach rebuild).value.map Prod.fst =
      (n.replaceChildren reach (bottomUp reach step)).value := by
    rw [NodeOf.replaceChildren_value, NodeOf.replaceChildren_value]
    cases reach with
    | keywords =>
      refine (NodeOf.mapBoth_mapBoth _ _ _ _ _).trans ((NodeOf.mapBoth_mapBoth _ _ _ _ n).trans ?_)
      exact NodeOf.mapBoth_congr (fun _ _ => rfl) fun s _ => rebuilt_fst s
    | auxiliary => exact (NodeOf.mapBoth_mapBoth _ _ _ _ _).trans (NodeOf.mapBoth_mapBoth _ _ _ _ n)
  rw [bottomUp, rebuilt, fold_node]
  refine Noted.bind_eq_bind (congrArg (fun n => (do return .node (← step n) : Noted Schema)) value) ?_ ?_
  · simp only [NodeOf.replaceChildren_changed, NodeOf.subschemas_map, List.any_map]
    refine congrArg (List.any _ ·) (funext fun s => Bool.or_false _)
  · simp only [NodeOf.replaceChildren_found, NodeOf.subschemas_map, List.flatMap_map]
    refine congrArg (List.flatMap · _) (funext fun s => List.append_nil _)

theorem bottomUp_value (n : Node) : (bottomUp reach step (.node n)).value =
    .node (step (n.mapReach reach fun s => (bottomUp reach step s).value)).value := by
  simp only [bottomUp_node, Noted.bind_value, Noted.pure_value, NodeOf.replaceChildren_value]

theorem bottomUp_changed (n : Node) : (bottomUp reach step (.node n)).changed =
    (((n.subschemas reach).any fun s => (bottomUp reach step s).changed) ||
      (step (n.mapReach reach fun s => (bottomUp reach step s).value)).changed) := by
  simp only [bottomUp_node, Noted.bind_changed, Noted.pure_changed, NodeOf.replaceChildren_changed,
    NodeOf.replaceChildren_value, Bool.or_false]

/-- The walk runs to its end, and gets the result that the bound on its depth leaves it. -/
theorem Lowering.walked (lowering : Lowering step) (schema : Schema) :
    Walked reach step schema (schema.mapNodes reach step) := by
  induction schema using lowering.induction with
  | bool value =>
    rw [mapNodes_bool]
    exact .bool value
  | malformed value =>
    rw [mapNodes_malformed]
    exact .malformed value
  | node n ih =>
    rw [lowering.mapNodes_node]
    exact .node _ fun s member => ih s (NodeOf.mem_auxiliary_of_mem member)

/-- A walk has one result. -/
theorem Walked.unique {schema : Schema} {result other : Noted Schema} (first : Walked reach step schema result)
    (second : Walked reach step schema other) : other = result := by
  induction first generalizing other with
  | bool value =>
    cases second
    rfl
  | malformed value =>
    cases second
    rfl
  | node images below ih =>
    cases second with
    | node images' below' =>
      refine Noted.bind_congr ?_
      rw [NodeOf.replaceChildren_congr fun s member => ih s member (below' s member)]

/-- The image of a node that the step leaves alone has the images of its subschemas. -/
def Passes (reach : Reach) (step : Node → Noted Node) (f : Schema → Schema) : Prop :=
  ∀ n, Settled step n → f (.node n) = .node (n.mapReach reach f)

/-- The step does the same to a node whose subschemas have images as to the node itself. It may put nodes of its own
around the subschemas, where the images pass through the nodes that it leaves alone. -/
def Commutes (reach : Reach) (step : Node → Noted Node) : Prop :=
  ∀ f, Passes reach step f → ∀ n, (step (n.mapReach reach f)).value = (step n).value.mapReach reach f ∧
    (step (n.mapReach reach f)).changed = (step n).changed

/-- The walk from the top down and the recursion from the bottom up come to the same. -/
theorem Lowering.mapNodes_eq_bottomUp (lowering : Lowering step) (commutes : Commutes reach step) (honest : Honest step)
    (schema : Schema) : (schema.mapNodes reach step).value = (bottomUp reach step schema).value ∧
      (schema.mapNodes reach step).changed = (bottomUp reach step schema).changed := by
  have passes : Passes reach step fun s => (mapNodes reach step s).value := by
    intro n settled
    exact (lowering.mapNodes_value n).trans (by rw [settled.1])
  induction schema using lowering_pure.induction with
  | bool value => exact ⟨rfl, rfl⟩
  | malformed value => exact ⟨rfl, rfl⟩
  | node n ih =>
    have below : ∀ s ∈ n.subschemas reach, _ := fun s member => ih s (NodeOf.mem_auxiliary_of_mem member)
    have images := NodeOf.mapReach_congr fun s member => (below s member).1
    obtain ⟨value, changed⟩ := commutes _ passes n
    rw [lowering.mapNodes_value, lowering.mapNodes_changed, bottomUp_value, bottomUp_changed, ← images, value, changed]
    refine ⟨rfl, ?_⟩
    cases here : (step n).changed with
    | true => rw [Bool.true_or, Bool.or_true]
    | false =>
      rw [Bool.false_or, Bool.or_false, honest n here, Bool.eq_iff_iff, List.any_eq_true, List.any_eq_true]
      exact exists_congr fun s => and_congr_right fun member => by rw [(below s member).2]

theorem commutes_ofOption {step : Node → Option Node}
    (commutes : ∀ f, Passes reach (fun n => Noted.ofOption n (step n)) f →
      ∀ n, step (n.mapReach reach f) = (step n).map (NodeOf.mapReach reach f)) :
    Commutes reach fun n => Noted.ofOption n (step n) := by
  intro f passes n
  dsimp only
  rw [commutes f passes n]
  cases step n <;> exact ⟨rfl, rfl⟩

theorem commutes_redirect (moves : List Reference.Move) :
    Commutes .auxiliary fun n => Noted.ofOption n (n.redirect? moves) := by
  refine commutes_ofOption fun f _ n => ?_
  obtain ⟨⟩ := n
  simp only [NodeOf.redirect?, NodeOf.mapReach, NodeOf.mapBoth]
  split
  · split
    · split <;> rfl
    · rfl
  · rfl

theorem commutes_completeConst : Commutes .keywords NodeOf.completeConst := by
  intro f _ n
  obtain ⟨⟩ := n
  simp only [NodeOf.completeConst, NodeOf.mapReach, NodeOf.mapBoth]
  split <;> exact ⟨rfl, rfl⟩

theorem commutes_positionalItems : Commutes .auxiliary fun n => Noted.ofOption n n.positionalItems? := by
  refine commutes_ofOption fun f passes n => ?_
  have joined (existing rest : Schema) : f (.node (NodeOf.everyOf [existing, rest])) =
      .node (NodeOf.everyOf [f existing, f rest]) := passes _ ⟨rfl, rfl⟩
  have items : (n.mapReach .auxiliary f).items = n.items.map (Items.map f) := rfl
  have additionalItems : (n.mapReach .auxiliary f).additionalItems = n.additionalItems.map f := rfl
  have prefixItems : (n.mapReach .auxiliary f).prefixItems = n.prefixItems.map (Slot.map (List.map f)) := rfl
  have later : (n.mapReach .auxiliary f).laterItems = n.laterItems.map f := by
    simp only [NodeOf.laterItems, items, additionalItems]
    rcases n.items with - | (positions | single)
    · rfl
    · rfl
    · cases n.additionalItems with
      | none => rfl
      | some existing => exact congrArg some (joined existing single).symm
  simp only [NodeOf.positionalItems?, items, prefixItems, later]
  rcases n.prefixItems with - | (schemas | value) <;> rcases n.items with - | (positions | single) <;> rfl

theorem commutes_unconditional : Commutes .auxiliary fun n => Noted.ofOption n n.unconditional? := by
  refine commutes_ofOption fun f passes n => ?_
  have guarded (condition : Schema) (branch : Option Schema) :
      f (NodeOf.guarded condition branch) = NodeOf.guarded (f condition) (branch.map f) := by
    cases branch with
    | none => rfl
    | some branch => exact passes _ ⟨rfl, rfl⟩
  have negation (condition : Schema) : f (.node (NodeOf.negation condition)) = .node (NodeOf.negation (f condition)) :=
    passes _ ⟨rfl, rfl⟩
  have branches (condition : Schema) (consequent alternative : Option Schema) :
      f (.node (NodeOf.branches condition consequent alternative)) =
        .node (NodeOf.branches (f condition) (consequent.map f) (alternative.map f)) := by
    refine (passes _ ⟨rfl, rfl⟩).trans ?_
    simp only [NodeOf.branches, ← negation, ← guarded]
    rfl
  have condition : (n.mapReach .auxiliary f).condition = n.condition.map f := rfl
  have allOf : (n.mapReach .auxiliary f).allOf = n.allOf.map (Slot.map (List.map f)) := rfl
  have consequent : (n.mapReach .auxiliary f).consequent = n.consequent.map f := rfl
  have alternative : (n.mapReach .auxiliary f).alternative = n.alternative.map f := rfl
  simp only [NodeOf.unconditional?, condition, allOf, consequent, alternative]
  rcases n.condition with - | condition
  · rfl
  · rcases n.allOf with - | (members | value)
    · simp only [Option.map_some, Option.map_none, ← branches]
      rfl
    · have appended (choice : Schema) : members.map f ++ [f choice] = (members ++ [choice]).map f := by
        rw [List.map_append, List.map_singleton]
      simp only [Option.map_some, Slot.map, Option.bind_some, Slot.valid?, Option.getD_some, ← branches, appended]
      rfl
    · rfl

theorem commutes_resolveNullable : Commutes .auxiliary fun n => Noted.ofOption n n.resolveNullable? := by
  refine commutes_ofOption fun f passes n => ?_
  have inner : f (.node n.withoutFlag) = .node (n.withoutFlag.mapReach .auxiliary f) := passes _ ⟨rfl, rfl⟩
  have null : f (.node NodeOf.nullType) = .node NodeOf.nullType := passes _ ⟨rfl, rfl⟩
  have empty : (n.mapReach .auxiliary f).withoutFlag.isEmpty = n.withoutFlag.isEmpty := by
    simp [NodeOf.isEmpty, NodeOf.withoutFlag, NodeOf.mapReach, NodeOf.mapBoth]
  have nullable : (n.mapReach .auxiliary f).nullable = n.nullable := rfl
  have types : (n.mapReach .auxiliary f).types = n.types := rfl
  simp only [NodeOf.resolveNullable?, nullable]
  split
  · rfl
  · rcases given : n.types with - | (names | value)
    · rw [NodeOf.admitNull_of_untyped given, NodeOf.admitNull_of_untyped (n := n.mapReach .auxiliary f) given, empty]
      split
      · rfl
      · change _ = some ({ anyOf := some (.valid [f (.node n.withoutFlag), f (.node NodeOf.nullType)])
                           extra := n.annotations } : Node)
        rw [inner, null]
        rfl
    · simp only [NodeOf.admitNull?, types, given]
      rfl
    · simp only [NodeOf.admitNull?, types, given]
      rfl
  · rfl

end Schema

/-- The changes that a walk can make at every node. The first serves both the reference pass, which knows no moves, and
hoisting. -/
inductive Rewriter where
  | redirect (moves : List Reference.Move)
  | completeConst
  | positionalItems
  | unconditional
  | resolveNullable

namespace Rewriter

/-- How far the walk goes. -/
def reach : Rewriter → Reach
  | .completeConst => .keywords
  | _ => .auxiliary

/-- What happens at a node. -/
def step : Rewriter → Node → Noted Node
  | .redirect moves => fun n => Noted.ofOption n (n.redirect? moves)
  | .completeConst => NodeOf.completeConst
  | .positionalItems => fun n => Noted.ofOption n n.positionalItems?
  | .unconditional => fun n => Noted.ofOption n n.unconditional?
  | .resolveNullable => fun n => Noted.ofOption n n.resolveNullable?

/-- The change of a whole schema. -/
def run : Rewriter → Schema → Noted Schema
  | .redirect moves => Schema.redirect moves
  | .completeConst => Schema.normalizeConst
  | .positionalItems => Schema.normalizeTuples
  | .unconditional => Schema.normalizeConditionals
  | .resolveNullable => Schema.normalizeNullable

variable (rewriter : Rewriter)

theorem run_eq (schema : Schema) : rewriter.run schema = schema.mapNodes rewriter.reach rewriter.step := by
  cases rewriter <;> rfl

theorem lowering_step : Schema.Lowering rewriter.step := by
  cases rewriter with
  | redirect moves => exact Schema.lowering_redirect moves
  | completeConst => exact Schema.lowering_completeConst
  | positionalItems => exact Schema.lowering_positionalItems
  | unconditional => exact Schema.lowering_unconditional
  | resolveNullable => exact Schema.lowering_resolveNullable

theorem honest_step : Schema.Honest rewriter.step := by
  cases rewriter with
  | completeConst => exact Pass.honest_completeConst
  | _ => exact Pass.honest_ofOption _

theorem commutes_step : Schema.Commutes rewriter.reach rewriter.step := by
  cases rewriter with
  | redirect moves => exact Schema.commutes_redirect moves
  | completeConst => exact Schema.commutes_completeConst
  | positionalItems => exact Schema.commutes_positionalItems
  | unconditional => exact Schema.commutes_unconditional
  | resolveNullable => exact Schema.commutes_resolveNullable

/-- Every rewriter comes to an end on every schema, with one result, and that is the schema and the report of the
recursion from the bottom up. -/
theorem run_eq_bottomUp (schema : Schema) :
    (∀ result, Schema.Walked rewriter.reach rewriter.step schema result ↔ result = rewriter.run schema) ∧
    (rewriter.run schema).value = (schema.bottomUp rewriter.reach rewriter.step).value ∧
    (rewriter.run schema).changed = (schema.bottomUp rewriter.reach rewriter.step).changed := by
  have walked : Schema.Walked rewriter.reach rewriter.step schema _ := rewriter.lowering_step.walked schema
  rw [run_eq]
  refine ⟨fun result => ⟨walked.unique, ?_⟩, ?_⟩
  · rintro rfl
    exact walked
  · exact rewriter.lowering_step.mapNodes_eq_bottomUp rewriter.commutes_step rewriter.honest_step schema

end Rewriter

end Schemata
