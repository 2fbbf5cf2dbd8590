import Schemata.Proofs.TypeScript.Soundness

namespace Schemata

namespace TsType

variable {names : Table String} {env : String → Json → Prop} {I : Interpretation} {n : Node} {values : List Json}

theorem inhabitPositions_iff {items : List TsType} {rest : List Json → Prop} :
    InhabitPositions env items rest values ↔ items.length ≤ values.length ∧
      (∀ (i : Nat) (type : TsType) (value : Json), items[i]? = some type → values[i]? = some value →
        type.Inhabits env value) ∧ rest (values.drop items.length) := by
  induction items generalizing values with
  | nil => simp [InhabitPositions]
  | cons item items ih =>
    cases values with
    | nil => simp [InhabitPositions]
    | cons value values =>
      rw [InhabitPositions, ih, List.length_cons, List.length_cons, Nat.add_le_add_iff_right, List.drop_succ_cons]
      constructor
      · rintro ⟨first, long, each, later⟩
        refine ⟨long, fun i type other listed there => ?_, later⟩
        cases i with
        | zero =>
          cases listed
          cases there
          exact first
        | succ i => exact each i type other listed there
      · rintro ⟨long, each, later⟩
        exact ⟨each 0 item value rfl rfl, long, fun i => each (i + 1), later⟩

theorem inhabits_tuple {items : List TsType} {rest : Option TsType} :
    (TsType.tuple items rest).Inhabits env (.array values) ↔ items.length ≤ values.length ∧
      (∀ (i : Nat) (type : TsType) (value : Json), items[i]? = some type → values[i]? = some value →
        type.Inhabits env value) ∧ InhabitRest env rest (values.drop items.length) := by
  rw [Inhabits, ← inhabitPositions_iff]
  constructor
  · rintro ⟨_, ⟨⟩, inside⟩
    exact inside
  · exact fun inside => ⟨values, rfl, inside⟩

theorem intersectionOf_tuple (items : List TsType) (rest : Option TsType) :
    intersectionOf [.tuple items rest] = .tuple items rest := by
  simp [intersectionOf, intersectionMembers, collect, joined, never, unknown, same]

theorem unionOf_tuple (items : List TsType) (rest : Option TsType) :
    unionOf [.tuple items rest] = .tuple items rest := by
  simp [unionOf, unionMembers, collect, joined, never, unknown, same]

/-- What is left over is what `additionalItems` asks for. -/
theorem inhabitRest_ofLater {schemas : List Schema} (positional : n.items = some (.positional schemas))
    (met : (n.map (Schema.Accepts I)).Meets I (.array values))
    (safe : ∀ later, n.additionalItems = some later → ∀ value ∈ values.drop schemas.length, later.Accepts I value →
      (ofSchema names later).Inhabits env value) :
    InhabitRest env (ofLater names n.additionalItems) (values.drop schemas.length) := by
  have asked (later : Schema) (given : n.additionalItems = some later) :
      ∀ value ∈ values.drop schemas.length, later.Accepts I value := by
    intro value member
    refine met.additionalItems (schemas.map (Schema.Accepts I)) (later.Accepts I)
      (congrArg (Option.map (Items.map _)) positional) (congrArg (Option.map _) given) values rfl value ?_
    rwa [List.length_map]
  unfold ofLater
  split
  · rw [InhabitRest]
    exact fun value _ => inhabits_unknown
  · rename_i closed
    rw [InhabitRest]
    exact List.eq_nil_iff_forall_not_mem.mpr fun value member => by cases asked _ closed value member
  · rename_i later _ given
    rw [InhabitRest]
    exact fun value member => safe later given value member (asked later given value member)

/-- Positional items become a tuple, besides what the combinators add. -/
theorem ofSchema_positional {schemas : List Schema} (typed : n.types = some (.valid (.single "array")))
    (positional : n.items = some (.positional schemas)) (structural : n.Structural) :
    ofSchema names (.node n) = intersectionOf (.tuple (schemas.map (ofSchema names)) (ofLater names n.additionalItems) ::
      (ofListed names intersectionOf n.allOf ++ ofListed names unionOf n.anyOf ++ ofListed names unionOf n.oneOf)) := by
  have typeNames : n.typeNames = ["array"] := by
    rw [NodeOf.typeNames, typed]
    rfl
  have base (objects : TsType) (aboutObjects aboutArrays : Bool) : ofTypeNames n.typeNames aboutObjects aboutArrays
      (ofElements names (ofLater names n.additionalItems) n.items) objects =
        .tuple (schemas.map (ofSchema names)) (ofLater names n.additionalItems) := by
    rw [typeNames, positional, ofElements, ofList_eq]
    exact unionOf_tuple _ _
  rw [ofSchema_structural structural, base]

/-- An array that a node with positional items accepts, and whose elements inhabit the types of their own schemas,
inhabits the tuple of these types when it has all the positions that are listed, and only then. The node is converted
to that tuple, besides what the combinators add. -/
theorem inhabits_tuple_iff {schemas : List Schema} (typed : n.types = some (.valid (.single "array")))
    (positional : n.items = some (.positional schemas)) :
    let tuple := TsType.tuple (schemas.map (ofSchema names)) (ofLater names n.additionalItems)
    (n.Structural → ofSchema names (.node n) = intersectionOf (tuple :: (ofListed names intersectionOf n.allOf ++
        ofListed names unionOf n.anyOf ++ ofListed names unionOf n.oneOf)) ∧
      (n.allOf = none → n.anyOf = none → n.oneOf = none → ofSchema names (.node n) = tuple)) ∧
    ((∀ text, n.reference ≠ some (.valid text)) → (Schema.node n).Accepts I (.array values) →
      (∀ (i : Nat) (schema : Schema) (value : Json), schemas[i]? = some schema → values[i]? = some value →
        schema.Accepts I value → (ofSchema names schema).Inhabits env value) →
      (∀ later, n.additionalItems = some later → ∀ value ∈ values.drop schemas.length, later.Accepts I value →
        (ofSchema names later).Inhabits env value) →
      (tuple.Inhabits env (.array values) ↔ schemas.length ≤ values.length)) := by
  intro tuple
  refine ⟨fun structural => ?_, fun own accepted each others => ?_⟩
  · have whole : ofSchema names (.node n) = _ := ofSchema_positional typed positional structural
    refine ⟨whole, fun all any one => ?_⟩
    rw [whole, all, any, one]
    exact intersectionOf_tuple _ _
  · have met : (n.map (Schema.Accepts I)).Meets I (.array values) :=
      (NodeOf.accepts_iff_meets (n := n.map (Schema.Accepts I)) own).mp ((Schema.accepts_node n).mp accepted)
    rw [inhabits_tuple, List.length_map]
    refine ⟨And.left, fun long => ⟨long, fun i type value listed there => ?_, inhabitRest_ofLater positional met others⟩⟩
    rw [List.getElem?_map] at listed
    obtain ⟨schema, inside, rfl⟩ := Option.map_eq_some_iff.mp listed
    have image : (schemas.map (Schema.Accepts I))[i]? = some (schema.Accepts I) := by
      rw [List.getElem?_map, inside, Option.map_some]
    have asked := met.positional _ (congrArg (Option.map (Items.map _)) positional) values rfl i _ value image there
    exact each i schema value inside there asked

/-- A list of items asks for nothing but its elements, however many of them there are. -/
theorem accepts_of_positional {schemas : List Schema} {additional : Option Schema}
    (each : ∀ (i : Nat) (schema : Schema) (value : Json), schemas[i]? = some schema → values[i]? = some value →
      schema.Accepts I value)
    (others : ∀ later, additional = some later → ∀ value ∈ values.drop schemas.length, later.Accepts I value) :
    (Schema.node { types := some (.valid (.single "array")), items := some (.positional schemas),
                   additionalItems := additional }).Accepts I (.array values) := by
  refine (Schema.accepts_node _).mpr (show NodeOf.Meets _ _ _ from
    { NodeOf.meets_empty I (.array values) with
      types := ?_
      single := nofun
      positional := ?_
      additionalItems := ?_ })
  · rintro _ ⟨⟩
    exact ⟨"array", List.mem_singleton_self _, .array, rfl, rfl⟩
  · rintro _ ⟨⟩ _ ⟨⟩ i accepts value listed there
    rw [List.getElem?_map] at listed
    obtain ⟨schema, inside, rfl⟩ := Option.map_eq_some_iff.mp listed
    exact each i schema value inside there
  · rintro _ accepts ⟨⟩ given _ ⟨⟩ value member
    obtain ⟨later, same, rfl⟩ := Option.map_eq_some_iff.mp given
    rw [List.length_map] at member
    exact others later same value member

/-- The tuple with one text, and nothing else: an array of one text and an array of none are both accepted, and one of
them inhabits the type. -/
theorem inhabits_tuple_iff_string :
    let item : Schema := .node { types := some (.valid (.single "string")) }
    let n : Node := { types := some (.valid (.single "array")), items := some (.positional [item]),
                      additionalItems := some (.bool false) }
    let I : Interpretation := ⟨fun _ _ => True, fun _ _ _ => True, fun _ _ _ => True, fun _ _ => True, fun _ _ => True⟩
    ofSchema [] (.node n) = .tuple [.primitive .string] none ∧
    ((Schema.node n).Accepts I (.array [.string "a"]) ∧
      (ofSchema [] (.node n)).Inhabits (fun _ _ => False) (.array [.string "a"])) ∧
    ((Schema.node n).Accepts I (.array []) ∧ ¬ (ofSchema [] (.node n)).Inhabits (fun _ _ => False) (.array [])) := by
  intro item n I
  have string : ofSchema [] item = .primitive .string := by
    simp [item, ofSchema, ofNode, ofForemost, ofTypeNames, ofTypeName, ofListed, ofProperties, Slot.valid?,
      TypeNames.names, unionOf, intersectionOf, unionMembers, intersectionMembers, collect, joined, same, never, unknown]
  have text : item.Accepts I (.string "a") := by
    refine (Schema.accepts_node _).mpr (show NodeOf.Meets _ _ _ from
      { NodeOf.meets_empty I (.string "a") with types := ?_ })
    rintro _ ⟨⟩
    exact ⟨"string", List.mem_singleton_self _, .string, rfl, rfl⟩
  have one : (Schema.node n).Accepts I (.array [.string "a"]) := by
    refine accepts_of_positional (fun i schema value listed there => ?_) fun later _ value member => by cases member
    obtain rfl := List.mem_singleton.mp (List.mem_of_getElem? listed)
    obtain rfl := List.mem_singleton.mp (List.mem_of_getElem? there)
    exact text
  have none : (Schema.node n).Accepts I (.array []) :=
    accepts_of_positional (fun i schema value _ there => by cases there) fun later _ value member => by cases member
  have inhabited : (ofSchema [] item).Inhabits (fun _ _ => False) (.string "a") := by
    rw [string, Inhabits]
    exact ⟨"a", rfl⟩
  have result (values : List Json) :=
    @inhabits_tuple_iff [] (fun _ _ => False) I n values [item] rfl rfl
  have structural : n.Structural := ⟨rfl, rfl, fun _ enum => by cases enum⟩
  have shape := ((result []).1 structural).2 rfl rfl rfl
  have closed : ofLater [] n.additionalItems = Option.none := by simp [n, ofLater]
  have plain (text : String) : n.reference ≠ some (.valid text) := fun given => by cases given
  rw [shape]
  refine ⟨?_, ⟨one, ?_⟩, none, fun inside => ?_⟩
  · rw [closed, List.map_singleton, string]
  · refine ((result _).2 plain one (fun i schema value listed there _ => ?_) fun later _ value member => by
      cases member).mpr (Nat.le_refl 1)
    obtain rfl := List.mem_singleton.mp (List.mem_of_getElem? listed)
    obtain rfl := List.mem_singleton.mp (List.mem_of_getElem? there)
    exact inhabited
  · have long := ((result []).2 plain none (fun i schema value _ there => by cases there) fun later _ value member => by
      cases member).mp inside
    cases long

/-- A list of items accepts the empty array, which its type does not hold. -/
theorem not_inhabits_tuple_empty :
    let n : Node := { types := some (.valid (.single "array")),
                      items := some (.positional [.node { types := some (.valid (.single "string")) }]) }
    let I : Interpretation := ⟨fun _ _ => True, fun _ _ _ => True, fun _ _ _ => True, fun _ _ => True, fun _ _ => True⟩
    (Schema.node n).Accepts I (.array []) ∧
      ofSchema [] (.node n) = .tuple [.primitive .string] (some unknown) ∧
      ¬ (ofSchema [] (.node n)).Inhabits (fun _ _ => False) (.array []) := by
  intro n I
  have shape : ofSchema [] (.node n) = .tuple [.primitive .string] (some unknown) := by
    simp [n, ofSchema, ofNode, ofForemost, ofTypeNames, ofTypeName, ofListed, ofElements, ofList, ofLater, ofProperties,
      Slot.valid?, TypeNames.names, unionOf, intersectionOf, unionMembers, intersectionMembers, collect, joined, same,
      never, unknown]
  have accepted : (Schema.node n).Accepts I (.array []) :=
    accepts_of_positional (fun i schema value _ there => by cases there) fun later given => by cases given
  refine ⟨accepted, shape, ?_⟩
  rw [shape, inhabits_tuple]
  rintro ⟨long, -⟩
  cases long

end TsType

end Schemata
