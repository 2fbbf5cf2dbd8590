import Schemata.Proofs.Naming
import Schemata.Proofs.Schema.Blocks

namespace Schemata

/-- A schema that comes to stand in the table: its name there, how it is written, and the names that the entries of
its own blocks get. -/
structure Owner where
  name : String
  schema : Schema
  given : List String

namespace Owner

/-- The entries of the blocks, each with its keyword, and with the name it gets. -/
def entries (owner : Owner) : List ((String × String × Json) × String) := owner.schema.blockEntries.zip owner.given

def moves (owner : Owner) : List Reference.Move :=
  owner.entries.map fun ((keyword, entry, _), name) => Reference.Move.ofEntry keyword entry name

/-- The schemas of the blocks under the names they get. -/
def inner (owner : Owner) : Table Schema :=
  owner.entries.map fun ((_, _, value), name) => (name, Schema.ofJson value)

/-- Follows what moved out of the blocks, if there is something. -/
def rewrite (owner : Owner) (schema : Schema) : Schema :=
  match owner.moves with
  | [] => schema
  | moves => (schema.redirect moves).value

end Owner

/-- A schema of the table and the owners around it, innermost first. -/
structure Trail where
  own : Owner
  above : List Owner

namespace Trail

/-- The schema after the owner next to it was rewritten, before it is hoisted itself. -/
def received (above : List Owner) (schema : Schema) : Schema :=
  match above with
  | [] => schema
  | parent :: _ => parent.rewrite schema

/-- The schema as it comes to stand in the table. -/
def hoisted (trail : Trail) : Schema := trail.own.rewrite (received trail.above trail.own.schema.withoutBlocks)

/-- The entry of the table. -/
def entry (trail : Trail) : String × Schema := (trail.own.name, trail.hoisted)

end Trail

/-- The trail of a schema, those of all schemas in its blocks, and the names taken. -/
structure Plan where
  trail : Trail
  below : List Trail
  names : NameAllocator

/-- What hoisting makes of the schema, by the plan. -/
def Plan.hoisted (plan : Plan) : Hoisted := ⟨plan.trail.hoisted, plan.below.map Trail.entry, plan.names⟩

/-- Plans every schema of a list of entries; what is below an entry comes after all entries. -/
def planEntries (plan : NameAllocator → String × Schema → Plan) (names : NameAllocator) :
    Table Schema → List Trail × List Trail × NameAllocator
  | [] => ([], [], names)
  | entry :: rest =>
    let first := plan names entry
    let (others, below, names) := planEntries plan first.names rest
    (first.trail :: others, first.below ++ below, names)

/-- Names the entries of blocks that are nested at most `levels` deep. -/
def planWithin : Nat → List Owner → NameAllocator → String × Schema → Plan
  | 0, above, names, (name, schema) => ⟨⟨⟨name, schema, []⟩, above⟩, [], names⟩
  | levels + 1, above, names, (name, schema) =>
    let (given, names) := names.allocateAll (schema.blockEntries.map fun (_, entry, _) => entry)
    let own : Owner := ⟨name, schema, given⟩
    let (direct, further, names) := planEntries (planWithin levels (own :: above)) names own.inner
    ⟨⟨own, above⟩, direct ++ further, names⟩

/-- The trails of all schemas that come to stand in the table, in its order. -/
def trails (definitions : Table Schema) : List Trail :=
  let (owners, further, _) := planEntries (fun names entry => planWithin entry.2.blockLevels [] names entry)
    (NameAllocator.reserving (Table.keys definitions)) definitions
  owners ++ further

namespace Owner

variable {owner : Owner}

theorem entries_of_nil (given : owner.given = []) : owner.entries = [] := by
  rw [entries, given, List.zip_nil_right]

theorem rewrite_of_nil (none : owner.entries = []) (schema : Schema) : owner.rewrite schema = schema := by
  simp only [rewrite, moves, none, List.map_nil]

theorem rewrite_of_ne_nil (some : owner.entries ≠ []) (schema : Schema) :
    owner.rewrite schema = (schema.redirect owner.moves).value := by
  have present : owner.moves ≠ [] := fun empty => some (List.map_eq_nil_iff.mp empty)
  rw [rewrite]
  split
  · rename_i empty
    exact absurd empty present
  · rfl

/-- Rewriting is nothing or a redirection, so it keeps what both keep. -/
theorem rewrite_induction {P : Schema → Prop} {schema : Schema} (same : P schema)
    (redirected : ∀ moves, P (schema.redirect moves).value) : P (owner.rewrite schema) := by
  by_cases none : owner.entries = []
  · rwa [rewrite_of_nil none]
  · rw [rewrite_of_ne_nil none]
    exact redirected _

theorem blockEntries_rewrite (owner : Owner) (schema : Schema) :
    (owner.rewrite schema).blockEntries = schema.blockEntries :=
  rewrite_induction (P := fun s => s.blockEntries = schema.blockEntries) rfl fun moves =>
    Schema.blockEntries_redirect moves schema

theorem withoutBlocks_rewrite (owner : Owner) (schema : Schema) :
    (owner.rewrite schema).withoutBlocks = owner.rewrite schema.withoutBlocks := by
  by_cases none : owner.entries = []
  · rw [rewrite_of_nil none, rewrite_of_nil none]
  · rw [rewrite_of_ne_nil none, rewrite_of_ne_nil none]
    exact Schema.withoutBlocks_redirect _ schema

end Owner

theorem NameAllocator.nameEntries_eq (names : NameAllocator) (entries : List (String × String × Json)) :
    names.nameEntries entries =
      ((entries.zip (names.allocateAll (entries.map fun (_, entry, _) => entry)).1).map
        fun ((keyword, entry, value), name) => (name, Reference.Move.ofEntry keyword entry name, value),
      (names.allocateAll (entries.map fun (_, entry, _) => entry)).2) := by
  induction entries generalizing names with
  | nil => rfl
  | cons entry rest ih =>
    obtain ⟨keyword, entry, value⟩ := entry
    simp only [nameEntries, ih, List.map_cons, allocateAll, List.zip_cons_cons]

namespace Schema

/-- One level of hoisting, said of a schema of any kind, with the blocks of the schema as it was written. -/
theorem hoistWithin_succ (levels : Nat) (names : NameAllocator) (name : String) {schema written : Schema}
    (same : schema.blockEntries = written.blockEntries) :
    let allocated := names.allocateAll (written.blockEntries.map fun (_, entry, _) => entry)
    let own : Owner := ⟨name, written, allocated.1⟩
    let inner := hoistEntries (hoistWithin levels) allocated.2 (Table.mapValues own.rewrite own.inner)
    hoistWithin (levels + 1) names schema = ⟨own.rewrite schema.withoutBlocks, inner.1 ++ inner.2.1, inner.2.2⟩ := by
  intro allocated own inner
  have allocation : allocated = names.allocateAll (schema.blockEntries.map fun (_, entry, _) => entry) := by rw [same]
  have pairs : own.entries = schema.blockEntries.zip allocated.1 := by rw [same, Owner.entries]
  have nothing (empty : schema.blockEntries = []) : inner = ([], [], names) ∧
      own.rewrite schema.withoutBlocks = schema.withoutBlocks := by
    have none : own.entries = [] := by rw [pairs, empty, List.zip_nil_left]
    have bare : own.inner = [] := by rw [Owner.inner, none, List.map_nil]
    rw [empty, List.map_nil] at allocation
    refine ⟨?_, Owner.rewrite_of_nil none _⟩
    simp only [inner, bare, Table.mapValues, List.map_nil, hoistEntries, allocation, NameAllocator.allocateAll]
  cases schema with
  | bool value =>
    obtain ⟨inside, own⟩ := nothing rfl
    rw [inside, own]
    rfl
  | malformed value =>
    obtain ⟨inside, own⟩ := nothing rfl
    rw [inside, own]
    rfl
  | node n =>
    rw [hoistWithin]
    split
    · rename_i empty
      obtain ⟨inside, own⟩ := nothing empty
      rw [inside, own]
      rfl
    · rename_i some
      have present : own.entries ≠ [] := by
        rw [pairs, ← List.length_pos_iff, List.length_zip, allocation, NameAllocator.length_allocateAll,
          List.length_map, min_self, List.length_pos_iff]
        exact some
      have moves : (n.blockEntries.zip allocated.1).map (fun ((keyword, entry, _), name) =>
          Reference.Move.ofEntry keyword entry name) = own.moves := by
        rw [Owner.moves, pairs]
        rfl
      have table : Table.mapValues own.rewrite own.inner = (n.blockEntries.zip allocated.1).map
          fun ((_, _, value), name) => (name, (redirect own.moves (ofJson value)).value) := by
        simp only [Table.mapValues, Owner.inner, pairs, List.map_map, Owner.rewrite_of_ne_nil present]
        rfl
      change allocated = names.allocateAll (n.blockEntries.map _) at allocation
      simp only [NameAllocator.nameEntries_eq, List.map_map, Function.comp_def, ← allocation, moves, ← table,
        Owner.rewrite_of_ne_nil present, withoutBlocks, inner]

end Schema

section

variable {plan : NameAllocator → String × Schema → Plan} {levels : Nat} {above : List Owner} {names : NameAllocator}
  {entry : String × Schema}

theorem planWithin_own (levels : Nat) (above : List Owner) (names : NameAllocator) (entry : String × Schema) :
    (planWithin levels above names entry).trail.own.name = entry.1 ∧
      (planWithin levels above names entry).trail.own.schema = entry.2 ∧
      (planWithin levels above names entry).trail.above = above := by
  cases levels <;> exact ⟨rfl, rfl, rfl⟩

theorem hoistEntries_eq (plan : NameAllocator → String × Schema → Plan) {hoist : NameAllocator → Schema → Hoisted}
    {rewrite : Schema → Schema} {table : Table Schema}
    (agree : ∀ names, ∀ entry ∈ table, hoist names (rewrite entry.2) = (plan names entry).hoisted)
    (named : ∀ names entry, (plan names entry).trail.own.name = entry.1) (names : NameAllocator) :
    hoistEntries hoist names (Table.mapValues rewrite table) =
      ((planEntries plan names table).1.map Trail.entry, (planEntries plan names table).2.1.map Trail.entry,
        (planEntries plan names table).2.2) := by
  induction table generalizing names with
  | nil => rfl
  | cons entry rest ih =>
    have first := agree names entry List.mem_cons_self
    have others := ih (fun names entry member => agree names entry (List.mem_cons_of_mem _ member))
      (plan names entry).names
    have name : Trail.entry (plan names entry).trail = (entry.1, (plan names entry).trail.hoisted) := by
      rw [Trail.entry, named]
    rw [planEntries]
    simp only [Table.mapValues, List.map_cons, hoistEntries] at others ⊢
    simp only [first, Plan.hoisted, others, name, List.map_append]

theorem Owner.mem_inner {owner : Owner} (member : entry ∈ owner.inner) :
    ∃ block ∈ owner.schema.blockEntries, entry.2 = Schema.ofJson block.2.2 := by
  obtain ⟨pair, inside, rfl⟩ := List.mem_map.mp member
  exact ⟨pair.1, (List.of_mem_zip inside).1, rfl⟩

/-- Hoisting a schema that the owner next to it has rewritten does what the plan says. -/
theorem Schema.hoistWithin_eq (enough : entry.2.blockLevels ≤ levels) :
    hoistWithin levels names (Trail.received above entry.2) = (planWithin levels above names entry).hoisted := by
  induction levels generalizing above names entry with
  | zero =>
    obtain ⟨name, schema⟩ := entry
    have scalar : schema.withoutBlocks = schema := by
      cases schema with
      | node n => simp [blockLevels] at enough
      | bool value => rfl
      | malformed value => rfl
    have bare (own : Owner) (empty : own.given = []) (schema : Schema) : own.rewrite schema = schema :=
      Owner.rewrite_of_nil (Owner.entries_of_nil empty) schema
    rw [hoistWithin, planWithin, Plan.hoisted, Trail.hoisted, bare _ rfl, scalar]
    · rfl
    · intro levels n impossible
      cases impossible
  | succ levels ih =>
    obtain ⟨name, schema⟩ := entry
    have entries : (Trail.received above schema).blockEntries = schema.blockEntries := by
      cases above with
      | nil => rfl
      | cons parent others => exact parent.blockEntries_rewrite schema
    have stripped : (Trail.received above schema).withoutBlocks = Trail.received above schema.withoutBlocks := by
      cases above with
      | nil => rfl
      | cons parent others => exact parent.withoutBlocks_rewrite schema
    rw [hoistWithin_succ levels names name entries, stripped, planWithin]
    simp only [Plan.hoisted]
    rw [hoistEntries_eq (planWithin levels (⟨name, schema, _⟩ :: above))]
    · rw [List.map_append]
      rfl
    · intro names entry member
      obtain ⟨block, inside, same⟩ := Owner.mem_inner member
      have lower := blockLevels_lt_of_entry inside
      refine @ih (⟨name, schema, _⟩ :: above) names entry ?_
      rw [same]
      change schema.blockLevels ≤ _ at enough
      change (ofJson block.2.2).blockLevels < schema.blockLevels at lower
      omega
    · exact fun names entry => (planWithin_own levels _ names entry).1

/-- The table that hoisting makes holds what the trails say, entry by entry. -/
theorem hoistDefinitions_eq (definitions : Table Schema) :
    (hoistDefinitions definitions).1 = (trails definitions).map Trail.entry := by
  have plan : hoistEntries Schema.hoist (NameAllocator.reserving (Table.keys definitions))
      (Table.mapValues id definitions) = _ :=
    hoistEntries_eq (fun names entry => planWithin entry.2.blockLevels [] names entry)
      (fun names entry _ => @Schema.hoistWithin_eq _ [] names entry (Nat.le_refl _))
      (fun names entry => (planWithin_own _ [] names entry).1) _
  have same : Table.mapValues id definitions = definitions := List.map_id definitions
  rw [same] at plan
  simp only [hoistDefinitions, plan, trails, List.map_append]

end

namespace Owner

/-- The schema as it is written, under its name. -/
def written (owner : Owner) : String × Schema := (owner.name, owner.schema)

/-- Every entry of the blocks gets a name. -/
def Full (owner : Owner) : Prop := owner.given.length = owner.schema.blockEntries.length

end Owner

/-- All trails of a plan. -/
def Plan.trails (plan : Plan) : List Trail := plan.trail :: plan.below

section

variable {plan : NameAllocator → String × Schema → Plan} {levels : Nat} {above : List Owner} {names : NameAllocator}
  {entry : String × Schema} {table : Table Schema} {t : Trail}

theorem planEntries_of_mem (plan : NameAllocator → String × Schema → Plan) (member : entry ∈ table)
    (names : NameAllocator) :
    ∃ before, (plan before entry).trails ⊆ (planEntries plan names table).1 ++ (planEntries plan names table).2.1 := by
  induction table generalizing names with
  | nil => cases member
  | cons first rest ih =>
    rw [planEntries]
    rcases List.mem_cons.mp member with rfl | later
    · refine ⟨names, fun t inside => ?_⟩
      rcases List.mem_cons.mp inside with rfl | below
      · exact List.mem_append_left _ List.mem_cons_self
      · exact List.mem_append_right _ (List.mem_append_left _ below)
    · obtain ⟨before, contained⟩ := ih later (plan names first).names
      refine ⟨before, fun t inside => ?_⟩
      rcases List.mem_append.mp (contained inside) with head | below
      · exact List.mem_append_left _ (List.mem_cons_of_mem _ head)
      · exact List.mem_append_right _ (List.mem_append_right _ below)

theorem mem_planEntries (member : t ∈ (planEntries plan names table).1 ++ (planEntries plan names table).2.1) :
    ∃ before, ∃ entry ∈ table, t ∈ (plan before entry).trails ∧
      (plan before entry).trails ⊆ (planEntries plan names table).1 ++ (planEntries plan names table).2.1 := by
  induction table generalizing names with
  | nil => cases member
  | cons first rest ih =>
    have own : (plan names first).trails ⊆
        (planEntries plan names (first :: rest)).1 ++ (planEntries plan names (first :: rest)).2.1 := by
      rw [planEntries]
      intro t inside
      rcases List.mem_cons.mp inside with rfl | below
      · exact List.mem_append_left _ List.mem_cons_self
      · exact List.mem_append_right _ (List.mem_append_left _ below)
    have others : (planEntries plan (plan names first).names rest).1 ++
          (planEntries plan (plan names first).names rest).2.1 ⊆
        (planEntries plan names (first :: rest)).1 ++ (planEntries plan names (first :: rest)).2.1 := by
      rw [planEntries]
      intro t inside
      rcases List.mem_append.mp inside with head | below
      · exact List.mem_append_left _ (List.mem_cons_of_mem _ head)
      · exact List.mem_append_right _ (List.mem_append_right _ below)
    have place : t ∈ (plan names first).trails ∨ t ∈ (planEntries plan (plan names first).names rest).1 ++
        (planEntries plan (plan names first).names rest).2.1 := by
      rw [planEntries] at member
      simp only [Plan.trails, List.mem_append, List.mem_cons] at member ⊢
      tauto
    rcases place with here | later
    · exact ⟨names, first, List.mem_cons_self, here, own⟩
    · obtain ⟨before, entry, listed, inside, contained⟩ := ih later
      exact ⟨before, entry, List.mem_cons_of_mem _ listed, inside, List.Subset.trans contained others⟩

theorem planWithin_succ (levels : Nat) (above : List Owner) (names : NameAllocator) (entry : String × Schema) :
    ∃ own : Owner, ∃ before, own.written = entry ∧ own.Full ∧
      (planWithin (levels + 1) above names entry).trail = ⟨own, above⟩ ∧
      (planWithin (levels + 1) above names entry).below =
        (planEntries (planWithin levels (own :: above)) before own.inner).1 ++
          (planEntries (planWithin levels (own :: above)) before own.inner).2.1 :=
  ⟨⟨entry.1, entry.2, _⟩, _, rfl, (NameAllocator.length_allocateAll ..).trans (List.length_map _), rfl, rfl⟩

/-- In a plan with levels enough, all entries of all blocks get names and have trails. -/
theorem planWithin_closed (enough : entry.2.blockLevels ≤ levels)
    (member : t ∈ (planWithin levels above names entry).trails) :
    t.own.Full ∧ ∀ inner ∈ t.own.inner, ∃ t' ∈ (planWithin levels above names entry).trails,
      t'.above = t.own :: t.above ∧ t'.own.written = inner := by
  induction levels generalizing above names entry with
  | zero =>
    obtain ⟨name, schema⟩ := entry
    obtain rfl := List.mem_singleton.mp member
    have scalar : schema.blockEntries = [] := by
      cases schema with
      | node n => simp [Schema.blockLevels] at enough
      | bool value => rfl
      | malformed value => rfl
    refine ⟨?_, fun inner inside => ?_⟩
    · change 0 = schema.blockEntries.length
      rw [scalar]
      rfl
    · rw [Owner.inner, Owner.entries_of_nil rfl] at inside
      cases inside
  | succ levels ih =>
    obtain ⟨own, before, written, full, head, below⟩ := planWithin_succ levels above names entry
    have lower (inner) (inside : inner ∈ own.inner) : inner.2.blockLevels ≤ levels := by
      obtain ⟨block, listed, same⟩ := Owner.mem_inner inside
      have less := Schema.blockLevels_lt_of_entry listed
      rw [show own.schema = entry.2 from congrArg Prod.snd written] at less
      rw [same]
      omega
    rw [Plan.trails, head, below] at member ⊢
    rcases List.mem_cons.mp member with rfl | inside
    · refine ⟨full, fun inner listed => ?_⟩
      obtain ⟨start, contained⟩ := planEntries_of_mem (planWithin levels (own :: above)) listed before
      obtain ⟨name, schema, outer⟩ := planWithin_own levels (own :: above) start inner
      exact ⟨_, List.mem_cons_of_mem _ (contained List.mem_cons_self), outer, Prod.ext name schema⟩
    · obtain ⟨start, inner, listed, inside, contained⟩ := mem_planEntries inside
      obtain ⟨full, further⟩ := ih (lower inner listed) inside
      refine ⟨full, fun deeper listed => ?_⟩
      obtain ⟨t', found, same⟩ := further deeper listed
      exact ⟨t', List.mem_cons_of_mem _ (contained found), same⟩

theorem planWithin_induction {P : Trail → Prop}
    (inner : ∀ (outer : Trail) (own : Owner), P outer → own.Full → own.written ∈ outer.own.inner →
      P ⟨own, outer.own :: outer.above⟩)
    (enough : entry.2.blockLevels ≤ levels) (head : P (planWithin levels above names entry).trail)
    (member : t ∈ (planWithin levels above names entry).trails) : P t := by
  induction levels generalizing above names entry with
  | zero => exact List.mem_singleton.mp member ▸ head
  | succ levels ih =>
    obtain ⟨own, before, written, full, trail, below⟩ := planWithin_succ levels above names entry
    rw [Plan.trails, below] at member
    rcases List.mem_cons.mp member with rfl | inside
    · exact head
    · rw [trail] at head
      obtain ⟨start, deeper, listed, inside, -⟩ := mem_planEntries inside
      obtain ⟨block, origin, same⟩ := Owner.mem_inner listed
      have less := Schema.blockLevels_lt_of_entry origin
      rw [show own.schema = entry.2 from congrArg Prod.snd written] at less
      have lower : deeper.2.blockLevels ≤ levels := by
        rw [same]
        omega
      obtain ⟨name, schema, outer⟩ := planWithin_own levels (own :: above) start deeper
      refine ih lower ?_ inside
      have full : (planWithin levels (own :: above) start deeper).trail.own.Full :=
        (planWithin_closed lower List.mem_cons_self).1
      generalize (planWithin levels (own :: above) start deeper).trail = next at name schema outer full ⊢
      obtain ⟨child, around⟩ := next
      obtain rfl : around = own :: above := outer
      refine inner ⟨own, above⟩ child head full ?_
      rw [show child.written = deeper from Prod.ext name schema]
      exact listed

end

section

variable {definitions : Table Schema} {t : Trail}

/-- Every definition has a trail. -/
theorem exists_trail_of_mem {entry : String × Schema} (member : entry ∈ definitions) :
    ∃ t ∈ trails definitions, t.above = [] ∧ t.own.written = entry := by
  obtain ⟨before, contained⟩ := planEntries_of_mem
    (fun names entry => planWithin entry.2.blockLevels [] names entry) member
    (NameAllocator.reserving (Table.keys definitions))
  obtain ⟨name, schema, above⟩ := planWithin_own entry.2.blockLevels [] before entry
  exact ⟨_, contained List.mem_cons_self, above, Prod.ext name schema⟩

/-- All entries of the blocks of a schema that has a trail get names, and have trails themselves. -/
theorem trails_closed (member : t ∈ trails definitions) :
    t.own.Full ∧ ∀ inner ∈ t.own.inner, ∃ t' ∈ trails definitions,
      t'.above = t.own :: t.above ∧ t'.own.written = inner := by
  obtain ⟨before, entry, -, inside, contained⟩ := mem_planEntries member
  obtain ⟨full, further⟩ := planWithin_closed (Nat.le_refl _) inside
  refine ⟨full, fun inner listed => ?_⟩
  obtain ⟨t', found, same⟩ := further inner listed
  exact ⟨t', contained found, same⟩

/-- What holds of the definitions, and passes from a schema to the entries of its blocks, holds of all trails. -/
theorem trails_induction {P : Trail → Prop}
    (root : ∀ own : Owner, own.Full → own.written ∈ definitions → P ⟨own, []⟩)
    (inner : ∀ (outer : Trail) (own : Owner), P outer → own.Full → own.written ∈ outer.own.inner →
      P ⟨own, outer.own :: outer.above⟩) (member : t ∈ trails definitions) : P t := by
  obtain ⟨before, entry, listed, inside, -⟩ := mem_planEntries member
  refine planWithin_induction inner (Nat.le_refl _) ?_ inside
  have full : (planWithin entry.2.blockLevels [] before entry).trail.own.Full :=
    (planWithin_closed (Nat.le_refl _) List.mem_cons_self).1
  obtain ⟨name, schema, above⟩ := planWithin_own entry.2.blockLevels [] before entry
  generalize (planWithin entry.2.blockLevels [] before entry).trail = next at name schema above full ⊢
  obtain ⟨own, around⟩ := next
  obtain rfl : around = [] := above
  refine root own full ?_
  rw [show own.written = entry from Prod.ext name schema]
  exact listed

/-- The schemas that come to stand in the table are read like those that stood there before. -/
theorem proper_of_mem_trails (proper : ∀ entry ∈ definitions, entry.2.Proper) (member : t ∈ trails definitions) :
    t.own.schema.Proper := by
  refine trails_induction (P := fun t => t.own.schema.Proper) (fun own _ listed => ?_)
    (fun outer own around _ listed => ?_) member
  · exact proper _ listed
  · obtain ⟨block, inside, same⟩ := Owner.mem_inner listed
    rw [show own.schema = Schema.ofJson block.2.2 from same]
    exact around.distinct.of_entry inside

theorem extraDistinct_of_mem_trails (distinct : ∀ entry ∈ definitions, entry.2.ExtraDistinct)
    (member : t ∈ trails definitions) : t.own.schema.ExtraDistinct := by
  refine trails_induction (P := fun t => t.own.schema.ExtraDistinct) (fun own _ listed => ?_)
    (fun outer own around _ listed => ?_) member
  · exact distinct _ listed
  · obtain ⟨block, inside, same⟩ := Owner.mem_inner listed
    rw [show own.schema = Schema.ofJson block.2.2 from same]
    exact (around.of_entry inside).distinct

/-- Rewriting keeps what the root of a schema without blocks carries along. -/
theorem Trail.thinned_hoisted (t : Trail) : ∃ between, t.own.schema.withoutBlocks.Thinned between ∧
    between.Thinned t.hoisted := by
  have rewritten (owner : Owner) (schema : Schema) : schema.Thinned (owner.rewrite schema) :=
    Owner.rewrite_induction (.same schema) fun moves => Schema.thinned_redirect moves schema
  refine ⟨_, ?_, rewritten _ _⟩
  cases t.above with
  | nil => exact .same _
  | cons parent others => exact rewritten parent _

/-- Hoisting leaves no block behind. -/
theorem blockless_hoistDefinitions (distinct : ∀ entry ∈ definitions, entry.2.ExtraDistinct) :
    ∀ entry ∈ (hoistDefinitions definitions).1, entry.2.Blockless := by
  rw [hoistDefinitions_eq, List.forall_mem_map]
  intro t member
  obtain ⟨between, first, second⟩ := t.thinned_hoisted
  exact second.blockless (first.blockless (Schema.blockless_withoutBlocks (extraDistinct_of_mem_trails distinct member)))

theorem proper_hoistDefinitions (proper : ∀ entry ∈ definitions, entry.2.Proper) :
    ∀ entry ∈ (hoistDefinitions definitions).1, entry.2.Proper := by
  rw [hoistDefinitions_eq, List.forall_mem_map]
  intro t member
  obtain ⟨between, first, second⟩ := t.thinned_hoisted
  exact second.proper (first.proper (proper_of_mem_trails proper member).withoutBlocks)

/-- Where no block has an entry, nothing moves, and only empty blocks are taken out. -/
theorem hoistDefinitions_of_empty (empty : ∀ entry ∈ definitions, entry.2.blockEntries = []) :
    hoistDefinitions definitions = (Table.mapValues Schema.withoutBlocks definitions, false) := by
  have bare (names : NameAllocator) (schema : Schema) (empty : schema.blockEntries = []) :
      schema.hoist names = ⟨schema.withoutBlocks, [], names⟩ := by
    cases schema with
    | node n =>
      have none : n.blockEntries = [] := empty
      rw [Schema.hoist, Schema.blockLevels, Nat.add_comm, Schema.hoistWithin, none, Schema.withoutBlocks]
    | bool value => rfl
    | malformed value => rfl
  have all (names : NameAllocator) : hoistEntries Schema.hoist names definitions =
      (Table.mapValues Schema.withoutBlocks definitions, [], names) := by
    induction definitions generalizing names with
    | nil => rfl
    | cons entry rest ih =>
      obtain ⟨first, others⟩ := List.forall_mem_cons.mp empty
      rw [hoistEntries, bare names entry.2 first, ih others]
      rfl
  simp only [hoistDefinitions, all, List.append_nil, List.isEmpty_nil, Bool.not_true]

/-- Where there is no block, nothing moves. -/
theorem hoistDefinitions_of_blockless (blockless : ∀ entry ∈ definitions, entry.2.Blockless) :
    hoistDefinitions definitions = (definitions, false) := by
  have same : Table.mapValues Schema.withoutBlocks definitions = definitions :=
    Table.mapValues_eq_self_iff.mpr fun entry member => (blockless entry member).withoutBlocks
  rw [hoistDefinitions_of_empty fun entry member => (blockless entry member).blockEntries, same]

/-- Every entry of a block joins the table. -/
theorem blockEntries_of_hoist {schema : Schema} {names : NameAllocator} (nothing : (schema.hoist names).added = []) :
    schema.blockEntries = [] := by
  cases schema with
  | bool value => rfl
  | malformed value => rfl
  | node n =>
    cases listed : n.blockEntries with
    | nil => exact listed
    | cons entry rest =>
      obtain ⟨keyword, name, value⟩ := entry
      rw [Schema.hoist, Schema.blockLevels, Nat.add_comm, Schema.hoistWithin, listed] at nothing
      simp only [NameAllocator.nameEntries, List.map_cons, hoistEntries, List.cons_append] at nothing
      cases nothing

theorem blockEntries_of_hoistEntries (names : NameAllocator)
    (nothing : (hoistEntries Schema.hoist names definitions).2.1 = []) :
    ∀ entry ∈ definitions, entry.2.blockEntries = [] := by
  induction definitions generalizing names with
  | nil => simp
  | cons entry rest ih =>
    rw [hoistEntries] at nothing
    obtain ⟨first, others⟩ := List.append_eq_nil_iff.mp nothing
    exact List.forall_mem_cons.mpr ⟨blockEntries_of_hoist first, ih _ others⟩

/-- The flag is raised as soon as a block has an entry. -/
theorem blockEntries_of_hoistDefinitions (still : (hoistDefinitions definitions).2 = false) :
    ∀ entry ∈ definitions, entry.2.blockEntries = [] := by
  refine blockEntries_of_hoistEntries (NameAllocator.reserving (Table.keys definitions)) ?_
  simpa only [hoistDefinitions, Bool.not_eq_false', List.isEmpty_iff] using still

end

end Schemata
