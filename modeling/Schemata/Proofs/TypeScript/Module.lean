import Mathlib.Data.List.Forall2
import Schemata.Proofs.Text.Lines
import Schemata.Proofs.TypeScript.Identifier
import Schemata.Proofs.TypeScript.Refs

namespace Schemata

/-- A name of a module. Types and values do not share their names. -/
inductive TsName where
  | type (name : String)
  | value (name : String)
deriving DecidableEq

namespace TsExpr

mutual
/-- The names that an expression uses. -/
def uses : TsExpr → List TsName
  | .identifier name => [.value name]
  | .literal _ => []
  | .json _ => []
  | .object fields => usesOfFields fields
  | .call callee typeArguments arguments =>
    callee.uses ++ (typeArguments.flatMap TsType.refs).map .type ++ usesOf arguments

def usesOf : List TsExpr → List TsName
  | [] => []
  | value :: rest => value.uses ++ usesOf rest

def usesOfFields : List (String × TsExpr) → List TsName
  | [] => []
  | (_, value) :: rest => value.uses ++ usesOfFields rest
end

theorem usesOfFields_identifiers {α : Type} (name : α → String) (table : Table α) :
    usesOfFields (Table.mapValues (fun value => identifier (name value)) table) =
      table.map fun entry => TsName.value (name entry.2) := by
  induction table with
  | nil => rfl
  | cons entry rest ih =>
    have first : Table.mapValues (fun value => identifier (name value)) (entry :: rest) =
        (entry.1, identifier (name entry.2)) :: Table.mapValues (fun value => identifier (name value)) rest := rfl
    rw [first, usesOfFields, ih, uses, List.map_cons, List.singleton_append]

end TsExpr

/-- The names that the declaration of a type refers to. -/
def TypeDeclaration.refs (declaration : TypeDeclaration) : List String :=
  match declaration.body with
  | .interface properties => TsType.refsOfProperties properties
  | .alias type => type.refs

theorem TypeDeclaration.refs_ofSchema (names : Table String) (name : String) (schema : Schema) :
    (TypeDeclaration.ofSchema names name schema).refs = (TsType.ofSchema names schema).refs := by
  unfold refs ofSchema
  dsimp only
  cases TsType.ofSchema names schema <;> simp only [TsType.refs]

/-- The names that lines of code declare: each stands behind one of the words at the start of its line. -/
def TsText.declaredBy (words : List String) (code : String) : List String :=
  (Text.lines code.toList).flatMap fun line => words.filterMap fun word =>
    (Text.after? word.toList line).map fun rest => String.ofList (rest.takeWhile inIdentifier)

namespace ModuleItem

/-- The names that an item declares. -/
def declares : ModuleItem → List TsName
  | .type declaration => [.type declaration.name]
  | .const declaration => [.value declaration.name]
  | .code text => (TsText.declaredBy ["export type ", "export interface "] text).map .type ++
      (TsText.declaredBy ["const ", "function ", "export function "] text).map .value

/-- The type that an item declares. -/
def type? : ModuleItem → Option TypeDeclaration
  | .type declaration => some declaration
  | _ => none

/-- The constant that an item declares, when it holds a JSON value. -/
def schema? : ModuleItem → Option ConstDeclaration
  | .const declaration =>
    match declaration.value with
    | .json _ => some declaration
    | _ => none
  | _ => none

/-- The constant that an item declares, when it holds the result of a call. -/
def decoder? : ModuleItem → Option ConstDeclaration
  | .const declaration =>
    match declaration.value with
    | .call _ _ _ => some declaration
    | _ => none
  | _ => none

/-- The names that the value of a constant uses. -/
def uses : ModuleItem → List TsName
  | .const declaration => declaration.value.uses
  | _ => []

end ModuleItem

/-- Every constant uses only names that were declared at the start or by an item before it. -/
inductive Scoped : List TsName → List ModuleItem → Prop
  | nil (declared : List TsName) : Scoped declared []
  | cons {declared : List TsName} {item : ModuleItem} {rest : List ModuleItem} (known : item.uses ⊆ declared)
      (others : Scoped (declared ++ item.declares) rest) : Scoped declared (item :: rest)

namespace Scoped

variable {declared : List TsName} {items more : List ModuleItem}

theorem append (first : Scoped declared items) (second : Scoped (declared ++ items.flatMap (·.declares)) more) :
    Scoped declared (items ++ more) := by
  induction first with
  | nil declared =>
    rw [List.flatMap_nil, List.append_nil] at second
    exact second
  | cons known others ih =>
    rw [List.flatMap_cons, ← List.append_assoc] at second
    exact .cons known (ih second)

theorem of_forall (known : ∀ item ∈ items, item.uses ⊆ declared) : Scoped declared items := by
  induction items generalizing declared with
  | nil => exact .nil declared
  | cons item rest ih =>
    obtain ⟨here, later⟩ := List.forall_mem_cons.mp known
    exact .cons here (ih fun other member => List.subset_append_of_subset_left _ (later other member))

end Scoped

namespace TsModule

/-- The types of a module, in order. -/
def types (module : TsModule) : List TypeDeclaration := module.items.filterMap ModuleItem.type?

/-- The constants that hold schemas, in order. -/
def schemas (module : TsModule) : List ConstDeclaration := module.items.filterMap ModuleItem.schema?

/-- The constants that hold decoders, in order. -/
def decoders (module : TsModule) : List ConstDeclaration := module.items.filterMap ModuleItem.decoder?

/-- A definition with the names that are given to it. -/
abbrev Bound := (String × Schema) × Binding

/-- The names of the types, by definition. -/
def typeNames (bound : List Bound) : Table String := bound.map fun given => (given.1.1, given.2.typeName)

/-- What is declared for a definition. -/
def declarations (names : Table String) (given : Bound) : List ModuleItem :=
  [.type (TypeDeclaration.ofSchema names given.2.typeName given.1.2), .const (schemaConst given.2 given.1.2)]

/-- The items up to the last definition. -/
def opening (bound : List Bound) (decoders : Bool) : List ModuleItem :=
  (if decoders then [.code contractCode] else []) ++ bound.flatMap (declarations (typeNames bound))

/-- The items that come last, when there are decoders. -/
def decoderItems (bound : List Bound) : List ModuleItem :=
  .code decoderCode :: bound.map fun given => .const (decoderConst given.1.1 given.2)

/-- The items of a module. -/
def layout (bound : List Bound) (decoders : Bool) : List ModuleItem :=
  opening bound decoders ++ [.const (schemaTable (bound.map fun given => (given.1.1, given.2)))] ++
    if decoders then decoderItems bound else []

section

variable {set : SchemaSet} {settings : GeneratorSettings} {module : TsModule} {bound : List Bound}

/-- A module has its items in the order of the definitions, each of which has its names. -/
theorem ofSet_layout (distinct : Table.Distinct set.definitions) (made : ofSet? set settings = some module) :
    ∃ bound, set.definitions = bound.map (·.1) ∧
      Binding.table (Table.keys set.definitions) = bound.map (fun given => (given.1.1, given.2)) ∧
      module.items = layout bound settings.decoders := by
  have keys := Binding.keys_table distinct
  obtain ⟨bound, own, bindings⟩ := Table.exists_pairs keys
  have names : Table.mapValues Binding.typeName (Binding.table (Table.keys set.definitions)) = typeNames bound := by
    rw [bindings, Table.mapValues, List.map_map]
    rfl
  have declared : set.definitions.flatMap (definitionItems (Binding.table (Table.keys set.definitions))) =
      bound.flatMap (declarations (typeNames bound)) := by
    conv_lhs => rw [own, List.flatMap_map]
    refine List.flatMap_congr fun given member => ?_
    have found : (Binding.table (Table.keys set.definitions)).lookup given.1.1 = some given.2 := by
      refine Table.lookup_of_mem (by rw [Table.Distinct, keys]; exact distinct) ?_
      rw [bindings]
      exact List.mem_map_of_mem member
    simp only [← own, definitionItems, found, names, declarations]
  refine ⟨bound, own, bindings, ?_⟩
  rw [bindings] at declared
  unfold ofSet? at made
  split at made
  · cases made
  · obtain rfl := Option.some.inj made
    cases settings.decoders with
    | true =>
      simp only [layout, opening, decoderItems, if_true, bindings, declared, List.map_map, List.append_assoc, List.cons_append,
        List.nil_append]
      rfl
    | false => simp only [layout, opening, Bool.false_eq_true, if_false, bindings, declared, List.nil_append, List.append_nil]

/-- What a module has of one kind: at most one item for each definition, and at most one for each decoder. -/
theorem filterMap_layout {α : Type} (bound : List Bound) (kind? : ModuleItem → Option α)
    (own decoder : Bound → Option α)
    (code : ∀ text, kind? (.code text) = none) (whole : ∀ table, kind? (.const (schemaTable table)) = none)
    (one : ∀ given, (declarations (typeNames bound) given).filterMap kind? = (own given).toList)
    (last : ∀ given : Bound, kind? (.const (decoderConst given.1.1 given.2)) = decoder given) (decoders : Bool) :
    (layout bound decoders).filterMap kind? =
      bound.filterMap own ++ if decoders then bound.filterMap decoder else [] := by
  have declared : (bound.flatMap (declarations (typeNames bound))).filterMap kind? = bound.filterMap own := by
    rw [List.filterMap_flatMap, List.filterMap_eq_flatMap_toList]
    exact List.flatMap_congr fun given _ => one given
  have made : (bound.map fun given => ModuleItem.const (decoderConst given.1.1 given.2)).filterMap kind? =
      bound.filterMap decoder := by
    rw [List.filterMap_map]
    exact List.filterMap_congr fun given _ => last given
  cases decoders with
  | true =>
    simp only [layout, opening, decoderItems, if_true, List.filterMap_append, List.filterMap_cons, List.filterMap_nil, code,
      whole, declared, made, List.nil_append, List.append_nil]
  | false =>
    simp only [layout, opening, Bool.false_eq_true, if_false, List.filterMap_append, List.filterMap_cons, List.filterMap_nil,
      whole, declared, List.nil_append, List.append_nil]

/-- There is one type and one schema for each definition, and one decoder if there are decoders. -/
theorem kinds_of_layout {decoders : Bool} (items : module.items = layout bound decoders) :
    module.types = bound.map (fun given => TypeDeclaration.ofSchema (typeNames bound) given.2.typeName given.1.2) ∧
      module.schemas = bound.map (fun given => schemaConst given.2 given.1.2) ∧
      module.decoders = if decoders then bound.map fun given => decoderConst given.1.1 given.2 else [] := by
  rw [types, schemas, TsModule.decoders, items]
  refine ⟨?_, ?_, ?_⟩
  · simpa using filterMap_layout bound ModuleItem.type?
      (fun given => some (TypeDeclaration.ofSchema (typeNames bound) given.2.typeName given.1.2)) (fun _ => none)
      (fun _ => rfl) (fun _ => rfl) (fun _ => rfl) (fun _ => rfl) decoders
  · simpa using filterMap_layout bound ModuleItem.schema? (fun given => some (schemaConst given.2 given.1.2)) (fun _ => none)
      (fun _ => rfl) (fun _ => rfl) (fun _ => rfl) (fun _ => rfl) decoders
  · simpa using filterMap_layout bound ModuleItem.decoder? (fun _ => none) (fun given => some (decoderConst given.1.1 given.2))
      (fun _ => rfl) (fun _ => rfl) (fun _ => rfl) (fun _ => rfl) decoders

theorem createDecoder_mem_declares : .value "createDecoder" ∈ (ModuleItem.code decoderCode).declares := by
  have line : "export function createDecoder<T>(name: string, schema: unknown): Decoder<T> \x7b".toList ∈
      Text.lines decoderCode.toList :=
    Text.mem_lines_intercalate (by simp) (by decide +kernel) (by decide +kernel) (by decide +kernel)
  refine List.mem_append_right _ (List.mem_map_of_mem (List.mem_flatMap.mpr ⟨_, line, ?_⟩))
  exact List.mem_filterMap.mpr ⟨"export function ", by decide, by decide +kernel⟩

theorem uses_schemaTable (table : Table Binding) :
    (ModuleItem.const (schemaTable table)).uses = table.map fun entry => .value entry.2.schemaName := by
  rw [ModuleItem.uses, schemaTable, TsExpr.uses]
  exact TsExpr.usesOfFields_identifiers Binding.schemaName table

theorem uses_decoderConst (name : String) (binding : Binding) : (ModuleItem.const (decoderConst name binding)).uses =
    [.value "createDecoder", .type binding.typeName, .value binding.schemaName] := by
  simp [ModuleItem.uses, decoderConst, TsExpr.uses, TsExpr.usesOf, TsType.refs]

theorem declares_opening {given : Bound} (member : given ∈ bound) (decoders : Bool) :
    .type given.2.typeName ∈ (opening bound decoders).flatMap (·.declares) ∧
      .value given.2.schemaName ∈ (opening bound decoders).flatMap (·.declares) := by
  have inside (item : ModuleItem) (own : item ∈ declarations (typeNames bound) given) :
      item.declares ⊆ (opening bound decoders).flatMap (·.declares) := fun name declared =>
    List.mem_flatMap.mpr ⟨item, List.mem_append_right _ (List.mem_flatMap.mpr ⟨given, member, own⟩), declared⟩
  exact ⟨inside (.type _) List.mem_cons_self (List.mem_singleton_self _),
    inside (.const _) (List.mem_cons_of_mem _ (List.mem_singleton_self _)) (List.mem_singleton_self _)⟩

theorem uses_opening (bound : List Bound) (decoders : Bool) : ∀ item ∈ opening bound decoders, item.uses = [] := by
  intro item member
  rcases List.mem_append.mp member with contract | declared
  · cases decoders with
    | true =>
      rw [List.mem_singleton.mp contract]
      rfl
    | false => cases contract
  · obtain ⟨given, -, own⟩ := List.mem_flatMap.mp declared
    rcases List.mem_pair.mp own with rfl | rfl
    · rfl
    · rw [ModuleItem.uses, schemaConst, TsExpr.uses]

/-- Nothing is used before it is declared. -/
theorem scoped_layout (bound : List Bound) (decoders : Bool) : Scoped [] (layout bound decoders) := by
  have start : Scoped [] (opening bound decoders) := by
    refine Scoped.of_forall fun item member => ?_
    rw [uses_opening bound decoders item member]
    exact List.nil_subset _
  refine (start.append (Scoped.of_forall fun item member => ?_)).append ?_
  · rw [List.mem_singleton.mp member, uses_schemaTable, List.map_map, List.nil_append]
    intro name used
    obtain ⟨given, listed, rfl⟩ := List.mem_map.mp used
    exact (declares_opening listed decoders).2
  · cases decoders with
    | false => exact .nil _
    | true =>
      refine .cons (List.nil_subset _) (Scoped.of_forall fun item member => ?_)
      obtain ⟨given, listed, rfl⟩ := List.mem_map.mp member
      obtain ⟨type, value⟩ := declares_opening listed true
      rw [uses_decoderConst, List.flatMap_append, List.nil_append]
      refine List.cons_subset.mpr ⟨?_, List.cons_subset.mpr ⟨?_, List.cons_subset.mpr ⟨?_, List.nil_subset _⟩⟩⟩
      · exact List.mem_append_right _ createDecoder_mem_declares
      · exact List.mem_append_left _ (List.mem_append_left _ type)
      · exact List.mem_append_left _ (List.mem_append_left _ value)

/-- The constants of a module are among those that the allocator has names for. -/
theorem constants_of_kinds {decoders : Bool} (schemas : module.schemas = bound.map fun given => schemaConst given.2 given.1.2)
    (made : module.decoders = if decoders then bound.map fun given => decoderConst given.1.1 given.2 else []) :
    ∃ names, ((module.schemas ++ module.decoders).map (·.name)).Sublist names ∧
      names.Perm (bound.flatMap fun given => given.2.valueNames) := by
  refine ⟨bound.map (·.2.schemaName) ++ bound.map (·.2.decoderName), ?_, ?_⟩
  · rw [List.map_append, schemas, made, List.map_map]
    refine (List.Sublist.refl _).append ?_
    cases decoders with
    | true =>
      rw [if_pos rfl, List.map_map]
      exact List.Sublist.refl _
    | false => exact List.nil_sublist _
  · have pairs := List.map_append_flatMap_perm bound (·.2.schemaName) fun given => [given.2.decoderName]
    rwa [← List.map_eq_flatMap] at pairs

/-- A module is closed, and its names do not collide. Types, and constants of schemas and decoders, have valid names, all
different and none of them reserved. There is a type and a schema for each definition, in order, and a decoder if decoders
are asked for. Types refer to types of the module, and constants use names that are declared before them. -/
theorem ofSet_closed (distinct : Table.Distinct set.definitions) (made : ofSet? set settings = some module) :
    let names := module.types.map (·.name)
    let constants := (module.schemas ++ module.decoders).map (·.name)
    ((∀ name ∈ names, TsText.isIdentifier name) ∧ (names ++ Binding.reservedTypes).Nodup) ∧
    ((∀ name ∈ constants, TsText.isIdentifier name) ∧ (constants ++ Binding.reservedValues).Nodup) ∧
    (List.Forall₂ (fun definition type => type =
        TypeDeclaration.ofSchema ((Table.keys set.definitions).zip names) type.name definition.2)
      set.definitions module.types ∧
    List.Forall₂ (fun definition schema => schema.value = .json definition.2.toJson) set.definitions module.schemas ∧
    List.Forall₂ (fun given decoder => decoder.value = .call (.identifier "createDecoder") [.ref given.2.1.name]
        [.literal (.string given.1.1), .identifier given.2.2.name])
      (if settings.decoders then set.definitions.zip (module.types.zip module.schemas) else []) module.decoders) ∧
    (∀ type ∈ module.types, type.refs ⊆ names) ∧ Scoped [] module.items := by
  intro names constants
  obtain ⟨bound, own, bindings, items⟩ := ofSet_layout distinct made
  obtain ⟨types, schemas, decoders⟩ := kinds_of_layout items
  have typed := Binding.typeNames_table distinct
  have valued := Binding.valueNames_table distinct
  rw [bindings, List.map_map] at typed
  rw [bindings, List.flatMap_map] at valued
  have named : names = bound.map (·.2.typeName) := by
    simp only [names, types, List.map_map]
    rfl
  have table : (Table.keys set.definitions).zip names = typeNames bound := by
    rw [named, own, Table.keys, List.map_map, List.zip_map']
    rfl
  refine ⟨?_, ?_, ⟨?_, ?_, ?_⟩, ?_, ?_⟩
  · rw [named]
    exact typed
  · obtain ⟨whole, part, same⟩ := constants_of_kinds schemas decoders
    refine ⟨fun name member => valued.1 name (same.subset (part.subset member)), ?_⟩
    exact ((same.append_right _).nodup_iff.mpr valued.2).sublist (part.append_right _)
  · rw [table, types, own, List.forall₂_map_left_iff, List.forall₂_map_right_iff, List.forall₂_same]
    exact fun given _ => rfl
  · rw [schemas, own, List.forall₂_map_left_iff, List.forall₂_map_right_iff, List.forall₂_same]
    exact fun given _ => rfl
  · rw [decoders, types, schemas, own, List.zip_map', List.zip_map']
    cases settings.decoders with
    | true =>
      rw [if_pos rfl, if_pos rfl, List.forall₂_map_left_iff, List.forall₂_map_right_iff, List.forall₂_same]
      exact fun given _ => rfl
    | false => exact .nil
  · intro type member
    rw [types] at member
    obtain ⟨given, -, rfl⟩ := List.mem_map.mp member
    rw [TypeDeclaration.refs_ofSchema, named]
    have inside := Schema.refs_ofSchema (typeNames bound) given.1.2
    rw [typeNames, List.map_map] at inside
    exact inside
  · rw [items]
    exact scoped_layout bound settings.decoders

/-- Names without a letter, with a digit first, and with the name of a reserved type, twice. -/
theorem ofSet_closed_record :
    let set := SchemaSet.ofDefinitions
      [("", .bool true), ("1", .bool true), ("record", .bool true), ("Record", .bool false)]
    Table.Distinct set.definitions ∧ ∃ module, ofSet? set {} = some module ∧
      module.types.map (·.name) = ["Anonymous", "_1", "Record2", "Record3"] ∧
      (module.types.map (·.name) ++ Binding.reservedTypes).Nodup ∧ Scoped [] module.items := by
  intro set
  have distinct : Table.Distinct set.definitions := by
    rw [Table.Distinct]
    decide
  obtain ⟨module, made, names⟩ : ∃ module, ofSet? set {} = some module ∧
      module.types.map (·.name) = ["Anonymous", "_1", "Record2", "Record3"] :=
    ⟨_, rfl, by decide +kernel⟩
  obtain ⟨typed, -, -, -, closed⟩ := ofSet_closed distinct made
  exact ⟨distinct, module, made, names, typed.2, closed⟩

end

end TsModule

end Schemata
