import Schemata.Proofs.Pass.Displacement

namespace Schemata

namespace Pass

section

variable {pass other : Pass} {passes : List Pass} {near : Bool} {n n' : Node} {key : String}

theorem displacedBy_earlier (displaced : n'.DisplacedBy passes near key other) (head : pass ≠ .const)
    (const : n'.const = n.const) (displaces : other ∈ passes → other.Displaces n' key → other.Displaces n key) :
    n.DisplacedBy (pass :: passes) near key other := by
  obtain ⟨listed, own, unfilled⟩ := displaced
  refine ⟨List.mem_cons_of_mem _ listed, displaces listed own, fun filled => unfilled ?_⟩
  rw [const]
  exact filled.imp_right (And.imp_left fun member => (List.mem_cons.mp member).resolve_left (Ne.symm head))

theorem displacedBy_later (displaced : n.DisplacedBy (pass :: passes) near key other) (const : n'.const = n.const)
    (displaces : other ≠ pass → other.Displaces n key → other.Displaces n' key) :
    other = pass ∨ n'.DisplacedBy passes near key other := by
  obtain ⟨listed, own, unfilled⟩ := displaced
  by_cases same : other = pass
  · exact Or.inl same
  · refine Or.inr ⟨(List.mem_cons.mp listed).resolve_left same, displaces same own, fun filled => unfilled ?_⟩
    rw [const] at filled
    exact filled.imp_right (And.imp_left (List.mem_cons_of_mem _))

theorem unsupplied_of_absent (absent : n.Absent (pass :: passes) key) :
    key ∈ NodeOf.unsupplied ∧ n.present? key = none :=
  ⟨absent.2.resolve_right nofun, absent.1⟩

theorem present_of_unsupplied (missing : n.present? key = none) (unsupplied : key ∈ NodeOf.unsupplied)
    (prefixItems : n'.prefixItems = n.prefixItems) (condition : n'.condition = n.condition)
    (consequent : n'.consequent = n.consequent) (alternative : n'.alternative = n.alternative)
    (extra : n'.extra = n.extra) : n'.present? key = none := by
  simp only [NodeOf.unsupplied, List.mem_cons, List.not_mem_nil, or_false] at unsupplied
  rcases unsupplied with rfl | rfl | rfl | rfl | rfl | rfl
  · exact (congrArg (Option.map _) prefixItems).trans missing
  · exact (congrArg (Option.map _) condition).trans missing
  · exact (congrArg (Option.map _) consequent).trans missing
  · exact (congrArg (Option.map _) alternative).trans missing
  · exact (congrArg (List.lookup "$defs") extra).trans missing
  · exact (congrArg (List.lookup "definitions") extra).trans missing

theorem enter_of_held {path : Pointer} {entered : Schema × Pointer}
    (same : ∀ held, n.held? key = some held → n'.held? key = some held)
    (enter : n.enter? (key :: path) = some entered) : n'.enter? (key :: path) = some entered := by
  obtain ⟨held, holds, inside⟩ := Option.bind_eq_some_iff.mp enter
  rw [NodeOf.enter?, same held holds, Option.bind_some, inside]

theorem not_displaces_of_keeps (keeps : n.Keeps (pass :: passes) near key)
    (unfilled : pass = .nullable → .const ∉ passes) : ¬ pass.Displaces n key := fun displaces => by
  refine keeps pass ⟨List.mem_cons_self, displaces, fun filled => ?_⟩
  rcases List.mem_cons.mp filled.2.1 with impossible | listed
  · rw [filled.1] at impossible
    cases impossible
  · exact unfilled filled.1 listed

/-- A step that leaves some nodes alone handles its pass when it acts wherever the pass displaces something, and does
what is asked where it acts. -/
theorem handles_ofOption {step : Node → Option Node} (head : pass ≠ .const)
    (unfilled : pass = .nullable → .const ∉ passes) (acts : ∀ n key, pass.Displaces n key → step n ≠ none)
    (earlier : ∀ near n n' key other, step n = some n' → n'.DisplacedBy passes near key other →
      n.DisplacedBy (pass :: passes) near key other)
    (later : ∀ near n n' key other, step n = some n' → n.DisplacedBy (pass :: passes) near key other →
      other = pass ∨ n'.DisplacedBy passes near key other)
    (enter : ∀ n n' key path entered, step n = some n' → ¬ pass.Displaces n key →
      n.enter? (key :: path) = some entered → n'.enter? (key :: path) = some entered)
    (carried : ∀ n n' key, step n = some n' → ¬ pass.Displaces n key → key ∉ keywords →
      n'.extra.lookup key = n.extra.lookup key)
    (removed : ∀ n n' key, step n = some n' → pass.Displaces n key → key ∉ pass.refilled → n'.Absent passes key)
    (absent : ∀ n n', ∀ key ∈ NodeOf.unsupplied, step n = some n' → n.present? key = none → n'.present? key = none) :
    Handles pass (fun n => Noted.ofOption n (step n)) passes where
  earlier near n key other _ displaced := by
    cases changed : step n with
    | none =>
      rw [changed] at displaced
      exact displacedBy_earlier displaced head rfl fun _ => id
    | some n' =>
      rw [changed] at displaced
      exact earlier near n n' key other changed displaced
  later near n key other _ displaced := by
    cases changed : step n with
    | none => exact displacedBy_later displaced rfl fun _ => id
    | some n' => exact later near n n' key other changed displaced
  enter near n key path entered keeps entering := by
    cases changed : step n with
    | none => exact entering
    | some n' => exact enter n n' key path entered changed (not_displaces_of_keeps keeps unfilled) entering
  carried near n key keeps other := by
    cases changed : step n with
    | none => rfl
    | some n' => exact carried n n' key changed (not_displaces_of_keeps keeps unfilled) other
  removed n key displaces bare := by
    cases changed : step n with
    | none => exact absurd changed (acts n key displaces)
    | some n' => exact removed n n' key changed displaces bare
  absent n key gone := by
    obtain ⟨unsupplied, none⟩ := unsupplied_of_absent gone
    refine ⟨?_, Or.inl unsupplied⟩
    cases changed : step n with
    | none => exact none
    | some n' => exact absent n n' key unsupplied changed none

theorem handles_redirect (moves : List Reference.Move) (passes : List Pass) :
    Handles .references (fun n => Noted.ofOption n (n.redirect? moves)) passes := by
  have same (other : Pass) (n : Node) (target : String) (key : String) :
      other.Displaces { n with reference := some (.valid target) } key ↔ other.Displaces n key := by
    cases other <;> exact Iff.rfl
  refine handles_ofOption (by decide) nofun (fun _ _ => False.elim) ?earlier ?later ?enter ?carried
    (fun _ _ _ _ => False.elim) ?absent
  case earlier =>
    intro near n n' key other changed displaced
    obtain ⟨reference, target, -, -, -, rfl⟩ := NodeOf.redirect_cases changed
    exact displacedBy_earlier displaced (by decide) rfl fun _ => (same other n target key).mp
  case later =>
    intro near n n' key other changed displaced
    obtain ⟨reference, target, -, -, -, rfl⟩ := NodeOf.redirect_cases changed
    exact displacedBy_later displaced rfl fun _ => (same other n target key).mpr
  case enter =>
    intro n n' key path entered changed _ enter
    obtain ⟨reference, target, -, -, -, rfl⟩ := NodeOf.redirect_cases changed
    exact enter
  case carried =>
    intro n n' key changed _ _
    obtain ⟨reference, target, -, -, -, rfl⟩ := NodeOf.redirect_cases changed
    rfl
  case absent =>
    intro n n' key unsupplied changed none
    obtain ⟨reference, target, -, -, -, rfl⟩ := NodeOf.redirect_cases changed
    exact present_of_unsupplied none unsupplied rfl rfl rfl rfl rfl

/-- Completing `const` moves nothing, and where it brings a type, the flag is done with. -/
theorem handles_completeConst (passes : List Pass) : Handles .const NodeOf.completeConst passes := by
  have near {near : Bool} (reached : near ∨ Pass.const.reach = .auxiliary) : near = true :=
    reached.resolve_right (by decide)
  have same {value : Json} {n : Node} (present : n.const = some value) (other : Pass) (key : String)
      (displaces : other ≠ .nullable) :
      other.Displaces n.completeConst.value key ↔ other.Displaces n key := by
    rw [NodeOf.completeConst_value present]
    cases other with
    | nullable => exact absurd rfl displaces
    | _ => exact Iff.rfl
  constructor
  case earlier =>
    intro flag n key other reached displaced
    obtain ⟨listed, own, unfilled⟩ := displaced
    cases present : n.const with
    | none =>
      rw [NodeOf.completeConst_of_none present] at own
      refine ⟨List.mem_cons_of_mem _ listed, own, fun filled => ?_⟩
      rw [present] at filled
      cases filled.2.2.2
    | some value =>
      have kind : other ≠ .nullable := by
        rintro rfl
        rw [NodeOf.completeConst_value present] at own
        cases own.2.1
      exact ⟨List.mem_cons_of_mem _ listed, (same present other key kind).mp own, fun filled => kind filled.1⟩
  case later =>
    intro flag n key other reached displaced
    obtain ⟨listed, own, unfilled⟩ := displaced
    have differ : other ≠ .const := by
      rintro rfl
      exact own
    have later := (List.mem_cons.mp listed).resolve_left differ
    cases present : n.const with
    | none =>
      rw [NodeOf.completeConst_of_none present]
      refine Or.inr ⟨later, own, fun filled => ?_⟩
      rw [present] at filled
      cases filled.2.2.2
    | some value =>
      have kind : other ≠ .nullable := fun nullable =>
        unfilled ⟨nullable, List.mem_cons_self, near reached, Option.isSome_of_eq_some present⟩
      exact Or.inr ⟨later, (same present other key kind).mpr own, fun filled => kind filled.1⟩
  case enter =>
    intro _ n key path entered _ enter
    cases present : n.const with
    | none => rwa [NodeOf.completeConst_of_none present]
    | some value =>
      rw [NodeOf.completeConst_value present]
      exact enter
  case carried =>
    intro _ n key _ _
    cases present : n.const with
    | none => rw [NodeOf.completeConst_of_none present]
    | some value => rw [NodeOf.completeConst_value present]
  case removed => exact fun _ _ => False.elim
  case absent =>
    intro n key absent
    obtain ⟨unsupplied, none⟩ := unsupplied_of_absent absent
    refine ⟨?_, Or.inl unsupplied⟩
    cases present : n.const with
    | none => rwa [NodeOf.completeConst_of_none present]
    | some value =>
      rw [NodeOf.completeConst_value present]
      exact present_of_unsupplied none unsupplied rfl rfl rfl rfl rfl

theorem positionalItems_of_displaces (displaces : Pass.tuples.Displaces n key) : n.positionalItems? ≠ none := by
  obtain ⟨⟨schemas, given⟩, place⟩ := displaces
  intro none
  rcases own : n.items with - | (positions | later)
  · simp [NodeOf.positionalItems?, given, own] at none
  · rcases place with ⟨-, single⟩ | ⟨-, later, single⟩
    · exact single positions own
    · rw [own] at single
      cases single
  · simp [NodeOf.positionalItems?, given, own] at none

/-- Outside of the keys that the tuple pass displaces, everything stays where it is. -/
theorem held_positionalItems (changed : n.positionalItems? = some n') (kept : ¬ Pass.tuples.Displaces n key)
    (held : Held Schema) (holds : n.held? key = some held) : n'.held? key = some held := by
  obtain ⟨schemas, given, single, rfl⟩ := NodeOf.positionalItems_cases changed
  unfold NodeOf.held? at holds ⊢
  split at holds
  case h_2 =>
    rcases own : n.items with - | (positions | later)
    · rw [own] at holds
      cases holds
    · exact absurd own (single positions)
    · exact absurd ⟨⟨schemas, given⟩, Or.inr ⟨by decide, later, own⟩⟩ kept
  case h_3 => exact absurd ⟨⟨schemas, given⟩, Or.inl ⟨rfl, single⟩⟩ kept
  case h_4 =>
    rcases own : n.items with - | (positions | later)
    · simpa only [NodeOf.laterItems, own] using holds
    · exact absurd own (single positions)
    · exact absurd ⟨⟨schemas, given⟩, Or.inr ⟨by decide, later, own⟩⟩ kept
  all_goals exact holds

theorem handles_positionalItems (passes : List Pass) :
    Handles .tuples (fun n => Noted.ofOption n n.positionalItems?) passes := by
  refine handles_ofOption (by decide) nofun (fun _ _ => positionalItems_of_displaces) ?earlier ?later
    ?enter ?carried ?removed ?absent
  case earlier =>
    intro near n n' key other changed displaced
    obtain ⟨schemas, -, -, rfl⟩ := NodeOf.positionalItems_cases changed
    refine displacedBy_earlier displaced (by decide) rfl fun _ displaces => ?_
    cases other with
    | tuples => cases displaces.1.choose_spec
    | _ => exact displaces
  case later =>
    intro near n n' key other changed displaced
    obtain ⟨schemas, -, -, rfl⟩ := NodeOf.positionalItems_cases changed
    refine displacedBy_later displaced rfl fun differ displaces => ?_
    cases other with
    | tuples => exact absurd rfl differ
    | _ => exact displaces
  case enter =>
    intro n n' key path entered changed kept enter
    exact enter_of_held (held_positionalItems changed kept) enter
  case carried =>
    intro n n' key changed _ _
    obtain ⟨schemas, -, -, rfl⟩ := NodeOf.positionalItems_cases changed
    rfl
  case removed =>
    intro n n' key changed displaces bare
    obtain ⟨schemas, -, -, rfl⟩ := NodeOf.positionalItems_cases changed
    rcases displaces.2 with ⟨rfl, -⟩ | ⟨refilled, -⟩
    · exact ⟨rfl, Or.inl (by decide)⟩
    · exact absurd refilled bare
  case absent =>
    intro n n' key unsupplied changed none
    obtain ⟨schemas, -, -, rfl⟩ := NodeOf.positionalItems_cases changed
    simp only [NodeOf.unsupplied, List.mem_cons, List.not_mem_nil, or_false] at unsupplied
    rcases unsupplied with rfl | rfl | rfl | rfl | rfl | rfl
    · rfl
    all_goals exact none

theorem wellFormed_of_unconditional (changed : n.unconditional? = some n') (value : Json) :
    n.allOf ≠ some (.malformed value) := by
  intro malformed
  cases present : n.condition <;> simp [NodeOf.unconditional?, present, malformed] at changed

/-- Outside of the keys that the conditional pass displaces, every path goes on as before; `allOf` gets one more
member, at its end. -/
theorem enter_unconditional (changed : n.unconditional? = some n') (kept : ¬ Pass.conditionals.Displaces n key)
    {path : Pointer} {entered : Schema × Pointer} (enter : n.enter? (key :: path) = some entered) :
    n'.enter? (key :: path) = some entered := by
  have wellFormed := wellFormed_of_unconditional changed
  obtain ⟨condition, present, -, rfl⟩ := NodeOf.unconditional_cases changed
  have other : key ∉ ["if", "then", "else"] := fun place =>
    kept ⟨place, Option.isSome_of_eq_some present, wellFormed⟩
  obtain ⟨held, holds, inside⟩ := Option.bind_eq_some_iff.mp enter
  by_cases members : key = "allOf"
  · subst members
    have listed : ∃ schemas, n.allOf = some (.valid schemas) ∧ held = .list schemas := by
      change Held.ofList? n.allOf = some held at holds
      rcases own : n.allOf with - | (schemas | value) <;> rw [own] at holds <;> cases holds
      exact ⟨schemas, rfl, rfl⟩
    obtain ⟨schemas, own, rfl⟩ := listed
    refine Option.bind_eq_some_iff.mpr ⟨_, rfl, ?_⟩
    rw [own]
    exact Held.enter_append _ inside
  · refine Option.bind_eq_some_iff.mpr ⟨held, ?_, inside⟩
    unfold NodeOf.held? at holds ⊢
    split at holds
    case h_6 => exact absurd rfl members
    case h_10 => exact absurd (by decide) other
    case h_11 => exact absurd (by decide) other
    case h_12 => exact absurd (by decide) other
    all_goals exact holds

theorem handles_unconditional (passes : List Pass) :
    Handles .conditionals (fun n => Noted.ofOption n n.unconditional?) passes := by
  refine handles_ofOption (by decide) nofun ?acts ?earlier ?later
    (fun _ _ _ _ _ changed kept enter => enter_unconditional changed kept enter) ?carried ?removed ?absent
  case acts =>
    intro n key displaces none
    obtain ⟨-, given, wellFormed⟩ := displaces
    obtain ⟨condition, present⟩ := Option.isSome_iff_exists.mp given
    rcases own : n.allOf with - | (schemas | value)
    · simp [NodeOf.unconditional?, present, own] at none
    · simp [NodeOf.unconditional?, present, own] at none
    · exact wellFormed value own
  case earlier =>
    intro near n n' key other changed displaced
    obtain ⟨condition, -, -, rfl⟩ := NodeOf.unconditional_cases changed
    refine displacedBy_earlier displaced (by decide) rfl fun _ displaces => ?_
    cases other with
    | conditionals => cases displaces.2.1
    | _ => exact displaces
  case later =>
    intro near n n' key other changed displaced
    obtain ⟨condition, -, -, rfl⟩ := NodeOf.unconditional_cases changed
    refine displacedBy_later displaced rfl fun differ displaces => ?_
    cases other with
    | conditionals => exact absurd rfl differ
    | _ => exact displaces
  case carried =>
    intro n n' key changed _ _
    obtain ⟨condition, -, -, rfl⟩ := NodeOf.unconditional_cases changed
    rfl
  case removed =>
    intro n n' key changed displaces _
    obtain ⟨condition, -, -, rfl⟩ := NodeOf.unconditional_cases changed
    have place := displaces.1
    simp only [List.mem_cons, List.not_mem_nil, or_false] at place
    rcases place with rfl | rfl | rfl <;> exact ⟨rfl, Or.inl (by decide)⟩
  case absent =>
    intro n n' key unsupplied changed none
    obtain ⟨condition, -, -, rfl⟩ := NodeOf.unconditional_cases changed
    simp only [NodeOf.unsupplied, List.mem_cons, List.not_mem_nil, or_false] at unsupplied
    rcases unsupplied with rfl | rfl | rfl | rfl | rfl | rfl
    · exact none
    · rfl
    · rfl
    · rfl
    all_goals exact none

theorem undescribed (keyword : key ∈ keywords) : onlyDescribes key = false :=
  (show ∀ key ∈ keywords, onlyDescribes key = false by decide) key keyword

/-- Nothing of an untyped node with the flag stays at its place but the annotations. -/
theorem absent_choice {extra : List (String × Json)} {members : Option (Slot (List Schema))}
    (other : key ≠ "anyOf") (describes : ¬ onlyDescribes key) :
    NodeOf.present? { anyOf := members, extra := extra.filter fun (key, _) => onlyDescribes key } key = none := by
  unfold NodeOf.present?
  split
  · unfold NodeOf.written
    split <;> first | rfl | exact absurd rfl other
  · rw [Table.lookup_filter onlyDescribes, if_neg describes]

theorem handles_resolveNullable : Handles .nullable (fun n => Noted.ofOption n n.resolveNullable?) [] := by
  have untyped {n : Node} {key : String} (displaces : Pass.nullable.Displaces n key) {n' : Node}
      (changed : n.resolveNullable? = some n') : ∃ members, n' = { anyOf := members, extra := n.annotations } := by
    obtain ⟨flag, none, -⟩ := displaces
    rcases NodeOf.resolveNullable_cases changed with ⟨off, -⟩ | ⟨-, ⟨types, given, -⟩ | ⟨-, ⟨-, rfl⟩ | ⟨-, rfl⟩⟩⟩
    · cases flag.symm.trans off
    · cases none.symm.trans given
    · exact ⟨_, rfl⟩
    · exact ⟨_, rfl⟩
  -- no pass is left, so nothing can displace a key of the choice, and what is gone stays away
  refine handles_ofOption (by decide) (fun _ => List.not_mem_nil) ?acts (fun _ _ _ _ _ _ => nofun) ?later ?enter
    ?carried ?removed ?absent
  case acts =>
    intro n key displaces none
    obtain ⟨flag, untyped, -⟩ := displaces
    rw [NodeOf.resolveNullable?, flag] at none
    change n.admitNull? = Option.none at none
    rw [NodeOf.admitNull_of_untyped untyped] at none
    split at none <;> cases none
  case later => exact fun _ _ _ _ _ _ displaced => Or.inl (List.mem_singleton.mp displaced.1)
  case enter =>
    intro n n' key path entered changed kept enter
    obtain ⟨held, holds, -⟩ := Option.bind_eq_some_iff.mp enter
    have keyword := (NodeOf.written_of_held holds).1
    rcases NodeOf.resolveNullable_cases changed with ⟨-, rfl⟩ | ⟨flag, ⟨types, -, rfl⟩ | ⟨none, -⟩⟩
    · exact enter
    · exact enter
    · refine absurd ⟨flag, none, ?_⟩ kept
      rw [undescribed keyword]
      exact Bool.false_ne_true
  case carried =>
    intro n n' key changed kept other
    have annotation (flag : n.nullable = some (.valid true)) (none : n.types = none) :
        n.annotations.lookup key = n.extra.lookup key := by
      have describes : onlyDescribes key := by
        by_contra undescribed
        exact kept ⟨flag, none, undescribed⟩
      rw [NodeOf.annotations, Table.lookup_filter onlyDescribes, if_pos describes]
    rcases NodeOf.resolveNullable_cases changed with ⟨-, rfl⟩ | ⟨flag, ⟨types, -, rfl⟩ | ⟨none, ⟨-, rfl⟩ | ⟨-, rfl⟩⟩⟩
    · rfl
    · rfl
    · exact annotation flag none
    · exact annotation flag none
  case removed =>
    intro n n' key changed displaces bare
    obtain ⟨members, rfl⟩ := untyped displaces changed
    exact ⟨absent_choice (List.ne_of_not_mem_cons bare) displaces.2.2, Or.inr rfl⟩
  case absent =>
    intro n n' key unsupplied changed none
    have named : key ≠ "anyOf" ∧ ¬ onlyDescribes key :=
      (show ∀ key ∈ NodeOf.unsupplied, key ≠ "anyOf" ∧ ¬ onlyDescribes key by decide) key unsupplied
    rcases NodeOf.resolveNullable_cases changed with ⟨-, rfl⟩ | ⟨flag, ⟨types, -, rfl⟩ | ⟨-, ⟨-, rfl⟩ | ⟨-, rfl⟩⟩⟩
    · exact present_of_unsupplied none unsupplied rfl rfl rfl rfl rfl
    · exact present_of_unsupplied none unsupplied rfl rfl rfl rfl rfl
    · exact absent_choice named.1 named.2
    · exact absent_choice named.1 named.2

/-- Every pass over schemas is a walk whose step handles it. -/
theorem handles_transform {transform : Schema → Noted Schema} (given : pass.transform? = some transform)
    (last : pass = .nullable → passes = []) :
    ∃ step, pass.Handles step passes ∧ Schema.Lowering step ∧
      ∀ schema, (transform schema).value = schema.walked pass.reach step true := by
  cases pass with
  | references =>
    cases given
    exact ⟨_, handles_redirect [] passes, Schema.lowering_redirect [], fun _ => rfl⟩
  | const =>
    cases given
    exact ⟨_, handles_completeConst passes, Schema.lowering_completeConst, fun _ => rfl⟩
  | tuples =>
    cases given
    exact ⟨_, handles_positionalItems passes, Schema.lowering_positionalItems, fun _ => rfl⟩
  | conditionals =>
    cases given
    exact ⟨_, handles_unconditional passes, Schema.lowering_unconditional, fun _ => rfl⟩
  | nullable =>
    cases given
    obtain rfl := last rfl
    exact ⟨_, handles_resolveNullable, Schema.lowering_resolveNullable, fun _ => rfl⟩
  | webhooks => cases given

/-- A pass keeps paths that it spares. -/
theorem spared_transform {transform : Schema → Noted Schema} (given : pass.transform? = some transform)
    (last : pass = .nullable → passes = []) {schema : Schema} {path : Pointer}
    (spared : schema.Spared (pass :: passes) true path) : (transform schema).value.Spared passes true path := by
  obtain ⟨step, handles, lowering, walk⟩ := handles_transform given last
  rw [walk]
  exact handles.spared lowering spared

/-- A pass severs the paths on which it removes a key, and mends none. -/
theorem severed_transform {transform : Schema → Noted Schema} (given : pass.transform? = some transform)
    (last : pass = .nullable → passes = []) {schema : Schema} {path : Pointer}
    (severed : schema.Severed (pass :: passes) (Missing (pass :: passes)) true path) :
    (transform schema).value.Severed passes (Missing passes) true path := by
  obtain ⟨step, handles, lowering, walk⟩ := handles_transform given last
  rw [walk]
  exact handles.severed lowering severed

end

end Pass

end Schemata
