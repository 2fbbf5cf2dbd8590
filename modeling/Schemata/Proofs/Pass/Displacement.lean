import Schemata.Proofs.Pass.Lossless

namespace Schemata

namespace Pass

/-- The pass takes away what stands under the key of the node. -/
def Displaces : Pass → Node → String → Prop
  | .tuples, n, key => (∃ schemas, n.prefixItems = some (.valid schemas)) ∧ (
      key = "prefixItems" ∧ (∀ positions, n.items ≠ some (.positional positions)) ∨
      key ∈ ["items", "additionalItems"] ∧ ∃ later, n.items = some (.single later))
  | .conditionals, n, key =>
      key ∈ ["if", "then", "else"] ∧ n.condition.isSome ∧ ∀ value, n.allOf ≠ some (.malformed value)
  | .nullable, n, key => n.nullable = some (.valid true) ∧ n.types = none ∧ ¬ onlyDescribes key
  | _, _, _ => False

/-- The keys under which the pass may put something else. -/
def refilled : Pass → List String
  | .tuples => ["items", "additionalItems"]
  | .nullable => ["anyOf"]
  | _ => []

end Pass

namespace NodeOf

/-- The pass is one of the passes, and displaces the key when its turn comes. A node that `const` gave a type, because
the const pass reaches it, is no longer rewritten for its flag. -/
def DisplacedBy (passes : List Pass) (near : Bool) (n : Node) (key : String) (pass : Pass) : Prop :=
  pass ∈ passes ∧ pass.Displaces n key ∧ ¬ (pass = .nullable ∧ .const ∈ passes ∧ near ∧ n.const.isSome)

/-- No pass displaces the key. -/
def Keeps (passes : List Pass) (near : Bool) (n : Node) (key : String) : Prop :=
  ∀ pass, ¬ n.DisplacedBy passes near key pass

/-- Some pass takes away what stands under the key, and puts nothing there. -/
def Removed (passes : List Pass) (near : Bool) (n : Node) (key : String) : Prop :=
  ∃ pass, n.DisplacedBy passes near key pass ∧ key ∉ pass.refilled

/-- What is written under a key. -/
def present? (n : Node) (key : String) : Option Json :=
  if key ∈ keywords then n.written key else n.extra.lookup key

/-- Keys that no pass gives to a node. -/
def unsupplied : List String := ["prefixItems", "if", "then", "else", "$defs", "definitions"]

/-- The key is gone, and no pass to come puts it there again. -/
def Absent (passes : List Pass) (n : Node) (key : String) : Prop :=
  n.present? key = none ∧ (key ∈ unsupplied ∨ passes = [])

end NodeOf

namespace Schema

/-- The path leads to a subschema, or to a place in what a node carries along, and on the way no pass displaces a key.
The flag says whether the const pass reaches the schema. -/
inductive Spared (passes : List Pass) : Bool → Schema → Pointer → Prop
  | here (near : Bool) (schema : Schema) : Spared passes near schema []
  | inside {near : Bool} {n : Node} {key : String} {path rest : Pointer} {child : Schema}
      (keeps : n.Keeps passes near key) (enter : n.enter? (key :: path) = some (child, rest))
      (further : Spared passes (near && key ∉ farKeywords) child rest) : Spared passes near (.node n) (key :: path)
  | carried {near : Bool} {n : Node} {key : String} {path : Pointer} (keeps : n.Keeps passes near key)
      (other : key ∉ keywords) (there : ((n.extra.lookup key).bind (·.resolve? path)).isSome) :
      Spared passes near (.node n) (key :: path)

/-- The path goes through subschemas that stay, and then to a key that is gone. -/
inductive Severed (passes : List Pass) (gone : Bool → Node → String → Prop) : Bool → Schema → Pointer → Prop
  | here {near : Bool} {n : Node} {key : String} (path : Pointer) (missing : gone near n key) :
      Severed passes gone near (.node n) (key :: path)
  | inside {near : Bool} {n : Node} {key : String} {path rest : Pointer} {child : Schema}
      (keeps : n.Keeps passes near key) (enter : n.enter? (key :: path) = some (child, rest))
      (further : Severed passes gone (near && key ∉ farKeywords) child rest) :
      Severed passes gone near (.node n) (key :: path)

end Schema

namespace NodeOf

variable {n : Node} {key : String} {reach : Reach} {f : Schema → Schema}

theorem isValid_map {α β : Type} {f : α → β} {slot : Option (Slot α)} :
    (∃ value, slot.map (Slot.map f) = some (.valid value)) ↔ ∃ value, slot = some (.valid value) := by
  rcases slot with - | (value | value) <;> simp [Slot.map]

theorem isMalformed_map {α β : Type} {f : α → β} {slot : Option (Slot α)} {value : Json} :
    slot.map (Slot.map f) = some (.malformed value) ↔ slot = some (.malformed value) := by
  rcases slot with - | (value | value) <;> simp [Slot.map]

theorem isSingle_map {items : Option (Items Schema)} :
    (∃ schema, items.map (Items.map f) = some (.single schema)) ↔ ∃ schema, items = some (.single schema) := by
  rcases items with - | (schemas | schema) <;> simp [Items.map]

theorem isPositional_map {items : Option (Items Schema)} :
    (∀ schemas, items.map (Items.map f) ≠ some (.positional schemas)) ↔
      ∀ schemas, items ≠ some (.positional schemas) := by
  rcases items with - | (schemas | schema) <;> simp [Items.map]

theorem displaces_mapBoth (pass : Pass) (n : Node) (f g : Schema → Schema) (key : String) :
    pass.Displaces (n.mapBoth f g) key ↔ pass.Displaces n key := by
  cases pass with
  | tuples => simp only [Pass.Displaces, mapBoth, isValid_map, isSingle_map, isPositional_map]
  | conditionals => simp only [Pass.Displaces, mapBoth, Option.isSome_map, ne_eq, isMalformed_map]
  | _ => exact Iff.rfl

theorem displacedBy_mapReach (passes : List Pass) (near : Bool) (n : Node) (key : String) (pass : Pass) (reach : Reach)
    (f : Schema → Schema) :
    (n.mapReach reach f).DisplacedBy passes near key pass ↔ n.DisplacedBy passes near key pass := by
  cases reach <;> simp only [DisplacedBy, mapReach, displaces_mapBoth] <;> rfl

theorem extra_mapReach (n : Node) (reach : Reach) (f : Schema → Schema) : (n.mapReach reach f).extra = n.extra := by
  cases reach <;> rfl

theorem written_mapBoth_eq_none (n : Node) (f g : Schema → Schema) (key : String) :
    (n.mapBoth f g).written key = none ↔ n.written key = none := by
  unfold written
  split <;> simp [mapBoth]

theorem present_mapReach_eq_none (n : Node) (reach : Reach) (f : Schema → Schema) (key : String) :
    (n.mapReach reach f).present? key = none ↔ n.present? key = none := by
  unfold present?
  split
  · cases reach <;> exact written_mapBoth_eq_none n _ _ key
  · rw [extra_mapReach]

/-- What a path enters is replaced by its image, as far as the reach goes. -/
theorem enter_mapReach (n : Node) (reach : Reach) (f : Schema → Schema) (key : String) (path : Pointer) :
    (n.mapReach reach f).enter? (key :: path) = (n.enter? (key :: path)).map fun entered =>
      (if reach = .keywords ∧ key ∈ farKeywords then entered.1 else f entered.1, entered.2) := by
  have held : (n.mapReach reach f).held? key =
      (n.held? key).map (Held.map fun s => if reach = .keywords ∧ key ∈ farKeywords then s else f s) := by
    cases reach with
    | keywords =>
      rw [mapReach, held_mapBoth]
      by_cases far : key ∈ farKeywords <;> simp only [far, if_true, if_false, and_self, and_false]
      rfl
    | auxiliary =>
      rw [mapReach, held_mapBoth, ite_self]
      rfl
  rw [enter?, enter?, held]
  cases n.held? key with
  | none => rfl
  | some held => exact Held.enter_map _ held path

end NodeOf

/-- What a walk makes of a schema, if it gets there. -/
def Schema.walked (reach : Reach) (step : Node → Noted Node) (near : Bool) (schema : Schema) : Schema :=
  if near ∨ reach = .auxiliary then (mapNodes reach step schema).value else schema

namespace Pass

/-- What a step does to the keys of a node, when the passes are still to run after it. -/
structure Handles (pass : Pass) (step : Node → Noted Node) (passes : List Pass) : Prop where
  earlier : ∀ (near : Bool) n key other, (near ∨ pass.reach = .auxiliary) →
    (step n).value.DisplacedBy passes near key other → n.DisplacedBy (pass :: passes) near key other
  later : ∀ (near : Bool) n key other, (near ∨ pass.reach = .auxiliary) →
    n.DisplacedBy (pass :: passes) near key other → other = pass ∨ (step n).value.DisplacedBy passes near key other
  enter : ∀ near n key path entered, n.Keeps (pass :: passes) near key → n.enter? (key :: path) = some entered →
    (step n).value.enter? (key :: path) = some entered
  carried : ∀ near n key, n.Keeps (pass :: passes) near key → key ∉ keywords →
    (step n).value.extra.lookup key = n.extra.lookup key
  removed : ∀ n key, pass.Displaces n key → key ∉ pass.refilled → (step n).value.Absent passes key
  absent : ∀ n key, n.Absent (pass :: passes) key → (step n).value.Absent passes key

section

variable {pass : Pass} {step : Node → Noted Node} {passes : List Pass} {near : Bool} {schema : Schema} {path : Pointer}
  {n : Node} {key : String}

theorem displacedBy_of_unreached (unreached : ¬ (near ∨ pass.reach = .auxiliary)) {other : Pass} :
    n.DisplacedBy passes near key other ↔ n.DisplacedBy (pass :: passes) near key other := by
  obtain ⟨far, narrow⟩ := not_or.mp unreached
  have const : pass = .const := by
    cases pass <;> first | rfl | exact absurd rfl narrow
  subst const
  constructor
  · rintro ⟨listed, displaces, -⟩
    exact ⟨List.mem_cons_of_mem _ listed, displaces, fun filled => far filled.2.2.1⟩
  · rintro ⟨listed, displaces, -⟩
    refine ⟨?_, displaces, fun filled => far filled.2.2.1⟩
    rcases List.mem_cons.mp listed with rfl | later
    · cases displaces
    · exact later

/-- A walk that gets to a node goes on below every key that the step keeps. -/
theorem Handles.enter_walked (handles : pass.Handles step passes) (keeps : n.Keeps (pass :: passes) near key)
    (reached : near ∨ pass.reach = .auxiliary) {rest : Pointer} {child : Schema}
    (enter : n.enter? (key :: path) = some (child, rest)) :
    ((step n).value.mapReach pass.reach fun s => (Schema.mapNodes pass.reach step s).value).enter? (key :: path) =
      some (child.walked pass.reach step (near && key ∉ farKeywords), rest) := by
  rw [NodeOf.enter_mapReach, handles.enter near n key path _ keeps enter, Option.map_some, Schema.walked]
  congr 2
  by_cases far : key ∈ farKeywords
  · rcases reached with near | wide
    · cases pass.reach <;> simp [far]
    · simp [wide]
  · rcases reached with near | wide
    · simp [far, near]
    · simp [wide]

/-- Nothing below an unreached node is reached. -/
theorem walked_of_unreached (unreached : ¬ (near ∨ pass.reach = .auxiliary)) (step : Node → Noted Node) (schema : Schema) :
    schema.walked pass.reach step near = schema :=
  if_neg unreached

theorem unreached_inside (unreached : ¬ (near ∨ pass.reach = .auxiliary)) :
    ¬ ((near && decide (key ∉ farKeywords)) = true ∨ pass.reach = .auxiliary) := fun inner =>
  unreached (inner.imp_left fun both => (Bool.and_eq_true_iff.mp both).1)

theorem keeps_of_unreached (keeps : n.Keeps (pass :: passes) near key)
    (unreached : ¬ (near ∨ pass.reach = .auxiliary)) : n.Keeps passes near key := fun other displaced =>
  keeps other ((displacedBy_of_unreached unreached).mp displaced)

theorem Handles.keeps_walked (handles : pass.Handles step passes) (keeps : n.Keeps (pass :: passes) near key)
    (reached : near ∨ pass.reach = .auxiliary) {f : Schema → Schema} :
    ((step n).value.mapReach pass.reach f).Keeps passes near key := fun other displaced =>
  keeps other (handles.earlier near n key other reached ((NodeOf.displacedBy_mapReach ..).mp displaced))

theorem Handles.spared (handles : pass.Handles step passes) (lowering : Schema.Lowering step)
    (spared : schema.Spared (pass :: passes) near path) :
    (schema.walked pass.reach step near).Spared passes near path := by
  -- the flag makes the induction go through: below a far keyword the walk of the const pass stops
  induction spared with
  | here near schema => exact .here near _
  | @inside near n key path rest child keeps enter further ih =>
    by_cases reached : near ∨ pass.reach = .auxiliary
    · rw [Schema.walked, if_pos reached, lowering.mapNodes_value]
      exact .inside (handles.keeps_walked keeps reached) (handles.enter_walked keeps reached enter) ih
    · rw [Schema.walked, if_neg reached]
      rw [walked_of_unreached (unreached_inside reached)] at ih
      exact .inside (keeps_of_unreached keeps reached) enter ih
  | @carried near n key path keeps other there =>
    by_cases reached : near ∨ pass.reach = .auxiliary
    · rw [Schema.walked, if_pos reached, lowering.mapNodes_value]
      refine .carried (handles.keeps_walked keeps reached) other ?_
      rwa [NodeOf.extra_mapReach, handles.carried near n key keeps other]
    · rw [Schema.walked, if_neg reached]
      exact .carried (keeps_of_unreached keeps reached) other there

/-- The key is removed by a pass to come, or is gone for good. -/
def Missing (passes : List Pass) (near : Bool) (n : Node) (key : String) : Prop :=
  n.Removed passes near key ∨ n.Absent passes key

theorem Handles.severed (handles : pass.Handles step passes) (lowering : Schema.Lowering step)
    (severed : schema.Severed (pass :: passes) (Missing (pass :: passes)) near path) :
    (schema.walked pass.reach step near).Severed passes (Missing passes) near path := by
  induction severed with
  | @here near n key path missing =>
    by_cases reached : near ∨ pass.reach = .auxiliary
    · have gone (absent : (step n).value.Absent passes key) :
          Missing passes near ((step n).value.mapReach pass.reach fun s => (Schema.mapNodes pass.reach step s).value)
            key :=
        Or.inr ⟨(NodeOf.present_mapReach_eq_none ..).mpr absent.1, absent.2⟩
      rw [Schema.walked, if_pos reached, lowering.mapNodes_value]
      refine .here path ?_
      rcases missing with ⟨other, displaced, bare⟩ | absent
      · rcases handles.later near n key other reached displaced with rfl | later
        · exact gone (handles.removed n key displaced.2.1 bare)
        · exact Or.inl ⟨other, (NodeOf.displacedBy_mapReach ..).mpr later, bare⟩
      · exact gone (handles.absent n key absent)
    · rw [Schema.walked, if_neg reached]
      refine .here path ?_
      rcases missing with ⟨other, displaced, bare⟩ | ⟨none, settled⟩
      · exact Or.inl ⟨other, (displacedBy_of_unreached reached).mpr displaced, bare⟩
      · exact Or.inr ⟨none, settled.imp_right nofun⟩
  | @inside near n key path rest child keeps enter further ih =>
    by_cases reached : near ∨ pass.reach = .auxiliary
    · rw [Schema.walked, if_pos reached, lowering.mapNodes_value]
      exact .inside (handles.keeps_walked keeps reached) (handles.enter_walked keeps reached enter) ih
    · rw [Schema.walked, if_neg reached]
      rw [walked_of_unreached (unreached_inside reached)] at ih
      exact .inside (keeps_of_unreached keeps reached) enter ih

end

end Pass

namespace Schema

variable {passes : List Pass} {near : Bool} {schema : Schema} {path : Pointer}

theorem Spared.resolves (spared : schema.Spared passes near path) : (schema.toJson.resolve? path).isSome := by
  induction spared with
  | here near schema => rfl
  | inside keeps enter further ih => rwa [toJson, resolve_nodeFields enter]
  | @carried near n key path keeps other there =>
    rw [toJson, Json.resolve?, Json.member?, lookup_nodeFields_of_carried other]
    exact there

theorem Severed.dangles (canonical : Canonical schema) (severed : schema.Severed [] (Pass.Missing []) near path) :
    schema.toJson.resolve? path = none := by
  induction severed with
  | @here near n key path missing =>
    obtain ⟨faithful, -⟩ := canonical_node.mp canonical
    have absent : n.present? key = none := by
      rcases missing with ⟨pass, displaced, -⟩ | absent
      · cases displaced.1
      · exact absent.1
    have unwritten : (nodeFields n).lookup key = none := by
      rw [← absent, NodeOf.present?]
      split
      · rename_i keyword
        exact lookup_nodeFields faithful.carried keyword
      · rename_i other
        exact lookup_nodeFields_of_carried other
    rw [toJson, Json.resolve?, Json.member?, unwritten, Option.bind_none]
  | inside keeps enter further ih =>
    obtain ⟨-, below⟩ := canonical_node.mp canonical
    rw [toJson, resolve_nodeFields enter]
    exact ih (below _ (NodeOf.mem_subschemas_of_enter enter))

/-- A path to a subschema is spared, or some pass displaces a key on it. -/
theorem At.spared_or_severed {target : Schema} (there : At path schema target) (passes : List Pass) (near : Bool) :
    schema.Spared passes near path ∨
      schema.Severed passes (fun near n key => ¬ n.Keeps passes near key) near path := by
  induction there generalizing near with
  | here schema => exact Or.inl (.here near schema)
  | @inside n path rest child target enter further ih =>
    cases path with
    | nil => cases enter
    | cons key path =>
      by_cases keeps : n.Keeps passes near key
      · exact (ih (near && key ∉ farKeywords)).imp (.inside keeps enter) (.inside keeps enter)
      · exact Or.inr (.here path keeps)

end Schema

end Schemata
