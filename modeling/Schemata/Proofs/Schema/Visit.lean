import Schemata.Proofs.Schema.Descent

namespace Schemata

namespace Noted

variable {α β : Type}

@[simp] theorem pure_found (a : α) : (pure a : Noted α).found = [] := rfl

@[simp] theorem bind_found (x : Noted α) (f : α → Noted β) : (x >>= f).found = x.found ++ (f x.value).found := rfl

end Noted

namespace NodeOf

variable {S : Type}

theorem replaceList_found (f : S → Noted S) (schemas : List S) :
    (replaceList f schemas).found = schemas.flatMap fun s => (f s).found := by
  induction schemas with
  | nil => rfl
  | cons schema rest ih =>
    simp only [replaceList, Noted.bind_found, Noted.pure_found, ih, List.flatMap_cons, List.append_nil]

theorem replaceTable_found (f : S → Noted S) (table : List (String × S)) :
    (replaceTable f table).found = (table.map (·.2)).flatMap fun s => (f s).found := by
  induction table with
  | nil => rfl
  | cons entry rest ih =>
    simp only [replaceTable, Noted.bind_found, Noted.pure_found, ih, List.map_cons, List.flatMap_cons, List.append_nil]

theorem replaceListed_found (f : S → Noted S) (slot : Option (Slot (List S))) :
    (replaceSlot (replaceList f) slot).found = (listed slot).flatMap fun s => (f s).found := by
  rcases slot with - | (schemas | value)
  · rfl
  · simp only [replaceSlot, Noted.bind_found, Noted.pure_found, replaceList_found, listed, List.append_nil]
  · rfl

theorem replaceDeclared_found (f : S → Noted S) (slot : Option (Slot (List (String × S)))) :
    (replaceSlot (replaceTable f) slot).found = (declared slot).flatMap fun s => (f s).found := by
  rcases slot with - | (table | value)
  · rfl
  · simp only [replaceSlot, Noted.bind_found, Noted.pure_found, replaceTable_found, declared, List.append_nil]
  · rfl

theorem replaceItems_found (f : S → Noted S) (items : Option (Items S)) :
    (replaceItems f items).found = (elements items).flatMap fun s => (f s).found := by
  rcases items with - | (schemas | schema)
  · rfl
  · simp only [replaceItems, Noted.bind_found, Noted.pure_found, replaceList_found, elements, List.append_nil]
  · simp only [replaceItems, Noted.bind_found, Noted.pure_found, elements, List.flatMap_singleton, List.append_nil]

theorem replaceSchema_found (f : S → Noted S) (schema : Option S) :
    (replaceSchema f schema).found = schema.toList.flatMap fun s => (f s).found := by
  cases schema with
  | none => rfl
  | some schema =>
    simp only [replaceSchema, Noted.bind_found, Noted.pure_found, Option.toList_some, List.flatMap_singleton,
      List.append_nil]

/-- Replacing the children finds what is found in each, in the order in which they are listed. -/
theorem replaceChildren_found (reach : Reach) (f : S → Noted S) (n : NodeOf S) :
    (n.replaceChildren reach f).found = (n.subschemas reach).flatMap fun s => (f s).found := by
  cases reach <;>
    simp only [replaceChildren, Noted.bind_found, Noted.pure_found, replaceListed_found, replaceDeclared_found,
      replaceItems_found, replaceSchema_found, subschemas_auxiliary, subschemas_keywords, List.flatMap_append,
      List.append_assoc, List.append_nil]

end NodeOf

namespace Schema

variable {reach : Reach}

/-- A changing walk finds what its step finds at the node, and then what it finds in the subschemas that are left. -/
theorem Lowering.mapNodes_found {step : Node → Noted Node} (lowering : Lowering step) (n : Node) :
    (mapNodes reach step (.node n)).found =
      (step n).found ++ ((step n).value.subschemas reach).flatMap fun s => (mapNodes reach step s).found := by
  simp only [lowering.mapNodes_node, Noted.bind_found, Noted.pure_found, NodeOf.replaceChildren_found, List.append_nil]

section

variable {m : Type → Type} [Monad m] [LawfulMonad m]

theorem visitWithin_eq (visit : Node → m PUnit) (levels : Nat) (schema : Schema) :
    visitWithin reach visit levels schema = (nodesWithin reach levels schema).forM visit := by
  induction levels generalizing schema with
  | zero => cases schema <;> rfl
  | succ levels ih =>
    cases schema with
    | bool value => rfl
    | malformed value => rfl
    | node n =>
      have below (children : List (Pointer × Schema)) :
          children.forM (fun entry => visitWithin reach visit levels entry.2) =
            (children.flatMap fun entry => nodesWithin reach levels entry.2).forM visit := by
        induction children with
        | nil => rfl
        | cons child rest rest_ih =>
          simp only [List.forM_eq_forM, List.forM_cons, List.flatMap_cons, List.forM_append] at rest_ih ⊢
          rw [rest_ih, ih, List.forM_eq_forM]
      rw [visitWithin, nodesWithin, below]
      rfl

/-- Handing every node to a visitor is a loop over the nodes, so a visitor that fails sees none of the nodes after. -/
theorem visitNodes_eq (visit : Node → m PUnit) (schema : Schema) :
    schema.visitNodes reach visit = (schema.nodes reach).forM visit := visitWithin_eq visit schema.height schema

end

end Schema

end Schemata
