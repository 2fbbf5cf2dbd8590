import Mathlib.Data.List.Nodup
import Schemata.Table

namespace Schemata

namespace Table

variable {α β : Type} {table : Table α} {name other : String} {value : α}

theorem mem_of_lookup (found : table.lookup name = some value) : (name, value) ∈ table := by
  obtain ⟨before, after, rfl, -⟩ := List.lookup_eq_some_iff.mp found
  exact List.mem_append_right before List.mem_cons_self

theorem name_mem_keys (member : (name, value) ∈ table) : name ∈ keys table :=
  List.mem_map_of_mem member

theorem keys_append (table more : Table α) : keys (table ++ more) = keys table ++ keys more :=
  List.map_append

theorem lookup_eq_none (absent : name ∉ keys table) : table.lookup name = none := by
  rw [← Option.not_isSome_iff_eq_none, lookup_isSome_iff]
  exact absent

theorem lookup_append_of_ne (table : Table α) (differ : other ≠ name) (value : α) :
    (table ++ [(name, value)]).lookup other = table.lookup other := by
  rw [List.lookup_append, List.lookup_cons, beq_false_of_ne differ, List.lookup_nil, Option.or_none]

theorem lookup_append_self (fresh : name ∉ keys table) (value : α) :
    (table ++ [(name, value)]).lookup name = some value := by
  rw [List.lookup_append, lookup_eq_none fresh, List.lookup_cons_self, Option.none_or]

theorem lookup_of_mem (distinct : Distinct table) (member : (name, value) ∈ table) :
    table.lookup name = some value := by
  induction table with
  | nil => cases member
  | cons entry rest ih =>
    obtain ⟨fresh, others⟩ := List.nodup_cons.mp (show (entry.1 :: keys rest).Nodup from distinct)
    rcases List.mem_cons.mp member with rfl | later
    · exact List.lookup_cons_self
    · have differ : name ≠ entry.1 := fun same => fresh (same ▸ name_mem_keys later)
      rw [List.lookup_cons, beq_false_of_ne differ]
      exact ih others later

/-- Tables without a name twice that find the same under every name differ in their order only. -/
theorem perm_of_lookup {more : Table α} (distinct : Distinct table) (distinct' : Distinct more)
    (same : ∀ name, table.lookup name = more.lookup name) : table.Perm more := by
  rw [List.perm_ext_iff_of_nodup (List.Nodup.of_map _ distinct) (List.Nodup.of_map _ distinct')]
  rintro ⟨name, value⟩
  constructor
  · exact fun member => mem_of_lookup ((same name).symm.trans (lookup_of_mem distinct member))
  · exact fun member => mem_of_lookup ((same name).trans (lookup_of_mem distinct' member))

/-- Where no value is given twice, a value is found under one name. -/
theorem name_of_lookup (different : (table.map (·.2)).Nodup) (found : table.lookup name = some value)
    (again : table.lookup other = some value) : other = name :=
  congrArg Prod.fst (List.inj_on_of_nodup_map different (mem_of_lookup again) (mem_of_lookup found) rfl)

/-- Two tables with the same names, entry by entry. -/
theorem exists_pairs {more : Table β} (same : keys more = keys table) :
    ∃ pairs : List ((String × α) × β), table = pairs.map (·.1) ∧ more = pairs.map fun pair => (pair.1.1, pair.2) := by
  induction table generalizing more with
  | nil => exact ⟨[], rfl, List.map_eq_nil_iff.mp same⟩
  | cons entry rest ih =>
    cases more with
    | nil => cases same
    | cons first others =>
      obtain ⟨name, value⟩ := first
      obtain ⟨rfl, later⟩ := List.cons.inj same
      obtain ⟨pairs, own, named⟩ := ih later
      exact ⟨(entry, value) :: pairs, congrArg (entry :: ·) own, congrArg ((entry.1, value) :: ·) named⟩

theorem erase_sublist (table : Table α) (name : String) : (erase table name).Sublist table := by
  induction table with
  | nil => exact List.Sublist.refl []
  | cons entry rest ih =>
    rw [erase]
    split
    · exact List.sublist_cons_self _ _
    · exact ih.cons_cons _

theorem length_erase_lt (present : name ∈ keys table) : (erase table name).length < table.length := by
  induction table with
  | nil => cases present
  | cons entry rest ih =>
    rw [erase]
    split
    · exact Nat.lt_succ_self _
    · rename_i differ
      rcases List.mem_cons.mp present with same | later
      · exact absurd same.symm differ
      · exact Nat.succ_lt_succ (ih later)

theorem Distinct.sublist {part : Table α} (distinct : Distinct table) (inside : part.Sublist table) : Distinct part :=
  List.Nodup.sublist (inside.map _) distinct

/-- Where some values have no image, their names are left out. -/
theorem keys_filterMap_sublist (f : α → Option β) (table : Table α) :
    (keys (table.filterMap fun (name, value) => (f value).map (name, ·))).Sublist (keys table) := by
  induction table with
  | nil => exact List.Sublist.refl _
  | cons entry rest ih =>
    obtain ⟨name, value⟩ := entry
    cases image : f value with
    | none => simpa [image] using ih.cons name
    | some result => simpa [image] using ih.cons_cons name

theorem lookup_filter (kept : String → Bool) (table : Table α) (name : String) :
    (table.filter fun entry => kept entry.1).lookup name = if kept name then table.lookup name else none := by
  induction table with
  | nil => simp
  | cons entry rest ih =>
    obtain ⟨other, value⟩ := entry
    by_cases same : name = other
    · subst same
      by_cases stays : kept name <;> simp [stays, ih]
    · have differ : (name == other) = false := by simpa using same
      by_cases stays : kept other <;> simp [List.lookup_cons, stays, differ, ih]

theorem erase_eq_filter (distinct : Distinct table) (name : String) :
    erase table name = table.filter fun entry => !(entry.1 == name) := by
  induction table with
  | nil => rfl
  | cons entry rest ih =>
    obtain ⟨other, value⟩ := entry
    rw [Distinct, keys_cons, List.nodup_cons] at distinct
    rw [erase]
    by_cases same : other = name
    · subst same
      rw [if_pos rfl, List.filter_cons_of_neg (by simp), List.filter_eq_self.mpr]
      intro entry member
      have differ : entry.1 ≠ other := fun same => distinct.1 (same ▸ List.mem_map_of_mem member)
      simpa using differ
    · rw [if_neg same, List.filter_cons_of_pos (by simpa using same), ih distinct.2]

theorem lookup_erase_self (distinct : Distinct table) (name : String) : (erase table name).lookup name = none := by
  rw [erase_eq_filter distinct, lookup_filter (fun other => !(other == name)), beq_self_eq_true, Bool.not_true]
  rfl

theorem lookup_erase_of_ne (table : Table α) (differ : other ≠ name) :
    (erase table name).lookup other = table.lookup other := by
  induction table with
  | nil => rfl
  | cons entry rest ih =>
    rw [erase]
    split
    · rename_i same
      rw [List.lookup_cons, same, beq_false_of_ne differ]
    · rw [List.lookup_cons, List.lookup_cons, ih]

theorem Distinct.insert (distinct : Distinct table) (name : String) (value : α) :
    Distinct (Table.insert table name value) := by
  rw [Distinct, keys_insert]
  split
  · exact distinct
  · rename_i fresh
    exact List.nodup_append.mpr ⟨distinct, List.nodup_singleton name, by
      intro a inside b same
      rw [List.mem_singleton] at same
      exact fun equal => fresh (same ▸ equal ▸ inside)⟩

theorem mem_insert {entry : String × α} (member : entry ∈ Table.insert table name value) :
    entry ∈ table ∨ entry = (name, value) := by
  induction table with
  | nil => exact Or.inr (List.mem_singleton.mp member)
  | cons first rest ih =>
    rw [Table.insert] at member
    split at member
    · rename_i same
      rcases List.mem_cons.mp member with new | later
      · exact Or.inr (by rw [new, same])
      · exact Or.inl (List.mem_cons_of_mem _ later)
    · rcases List.mem_cons.mp member with same | later
      · exact Or.inl (same ▸ List.mem_cons_self)
      · exact (ih later).imp_left (List.mem_cons_of_mem _)

theorem mem_insertAll {more : Table α} {entry : String × α} (member : entry ∈ insertAll table more) :
    entry ∈ table ∨ entry ∈ more := by
  induction more generalizing table with
  | nil => exact Or.inl member
  | cons first rest ih =>
    rcases ih member with inserted | later
    · rcases mem_insert inserted with old | new
      · exact Or.inl old
      · exact Or.inr (new ▸ List.mem_cons_self)
    · exact Or.inr (List.mem_cons_of_mem _ later)

theorem lookup_insert (table : Table α) (name other : String) (value : α) :
    (Table.insert table name value).lookup other = if other = name then some value else table.lookup other := by
  induction table with
  | nil =>
    by_cases same : other = name
    · simp [Table.insert, same]
    · have differ : (other == name) = false := by simpa using same
      simp [Table.insert, List.lookup_cons, differ, same]
  | cons entry rest ih =>
    obtain ⟨first, old⟩ := entry
    by_cases here : first = name
    · subst here
      by_cases same : other = first
      · simp [Table.insert, same]
      · have differ : (other == first) = false := by simpa using same
        simp [Table.insert, List.lookup_cons, differ, same]
    · rw [Table.insert, if_neg here, List.lookup_cons, List.lookup_cons, ih]
      by_cases same : other = first
      · simp [same, here]
      · have differ : (other == first) = false := by simpa using same
        simp [differ]

theorem insert_of_fresh (fresh : name ∉ keys table) (value : α) :
    Table.insert table name value = table ++ [(name, value)] := by
  induction table with
  | nil => rfl
  | cons entry rest ih =>
    obtain ⟨first, old⟩ := entry
    rw [keys_cons, List.mem_cons, not_or] at fresh
    rw [Table.insert, if_neg (Ne.symm fresh.1), ih fresh.2, List.cons_append]

theorem insertAll_cons (table : Table α) (name : String) (value : α) (rest : Table α) :
    insertAll table ((name, value) :: rest) = insertAll (Table.insert table name value) rest := rfl

/-- Inserting a table without a name twice: what it finds goes first. -/
theorem lookup_insertAll {more : Table α} (distinct : Distinct more) (table : Table α) (name : String) :
    (insertAll table more).lookup name = (more.lookup name).or (table.lookup name) := by
  induction more generalizing table with
  | nil => rfl
  | cons entry rest ih =>
    obtain ⟨first, value⟩ := entry
    obtain ⟨fresh, others⟩ := List.nodup_cons.mp (show (first :: keys rest).Nodup from distinct)
    rw [insertAll_cons, ih others, lookup_insert, List.lookup_cons]
    by_cases same : name = first
    · subst same
      simp [lookup_eq_none fresh]
    · simp [same, beq_false_of_ne same]

/-- Inserting a table without a name twice: the names that are new come behind, in their order. -/
theorem keys_insertAll {more : Table α} (distinct : Distinct more) (table : Table α) :
    keys (insertAll table more) = keys table ++ (keys more).filter (· ∉ keys table) := by
  induction more generalizing table with
  | nil => exact (List.append_nil _).symm
  | cons entry rest ih =>
    obtain ⟨first, value⟩ := entry
    obtain ⟨fresh, others⟩ := List.nodup_cons.mp (show (first :: keys rest).Nodup from distinct)
    rw [insertAll_cons, ih others, keys_insert, keys_cons, List.filter_cons]
    by_cases present : first ∈ keys table
    · simp [present]
    · have later : (keys rest).filter (· ∉ keys table ++ [first]) = (keys rest).filter (· ∉ keys table) := by
        refine List.filter_congr fun name inside => ?_
        have differ : name ≠ first := fun same => fresh (same ▸ inside)
        simp [differ]
      simp only [present, if_false, not_false_eq_true, decide_true, if_true, later, List.append_assoc,
        List.singleton_append]

theorem filter_insert (kept : String → Bool) (table : Table α) (name : String) (value : α) :
    (Table.insert table name value).filter (fun entry => kept entry.1) =
      if kept name then Table.insert (table.filter fun entry => kept entry.1) name value
      else table.filter fun entry => kept entry.1 := by
  induction table with
  | nil => cases stays : kept name <;> simp [Table.insert, stays]
  | cons entry rest ih =>
    obtain ⟨first, old⟩ := entry
    rw [Table.insert]
    by_cases same : first = name
    · subst same
      cases stays : kept first <;> simp [Table.insert, stays]
    · cases stays : kept first <;> cases stays' : kept name <;> simp_all [Table.insert]

theorem filter_insertAll (kept : String → Bool) (table more : Table α) :
    (insertAll table more).filter (fun entry => kept entry.1) =
      insertAll (table.filter fun entry => kept entry.1) (more.filter fun entry => kept entry.1) := by
  induction more generalizing table with
  | nil => rfl
  | cons entry rest ih =>
    obtain ⟨first, value⟩ := entry
    rw [insertAll_cons, ih, filter_insert]
    cases stays : kept first <;> simp only [List.filter_cons, stays] <;> rfl

/-- Inserting entries with new names puts them behind the others. -/
theorem insertAll_of_distinct {more : Table α} (distinct : Distinct (table ++ more)) :
    insertAll table more = table ++ more := by
  induction more generalizing table with
  | nil => exact (List.append_nil table).symm
  | cons entry rest ih =>
    obtain ⟨name, value⟩ := entry
    have fresh : name ∉ keys table := by
      rw [Distinct, keys_append, keys_cons] at distinct
      exact fun used => List.disjoint_of_nodup_append distinct used List.mem_cons_self
    have moved : table ++ (name, value) :: rest = (table ++ [(name, value)]) ++ rest := by
      rw [List.append_assoc, List.singleton_append]
    rw [insertAll_cons, insert_of_fresh fresh, moved]
    exact ih (moved ▸ distinct)

/-- Filling the gap with the last entry or moving up leaves the same entries. -/
theorem swapErase_perm_erase (table : Table α) (name : String) : (swapErase table name).Perm (erase table name) := by
  induction table with
  | nil => exact List.Perm.refl []
  | cons entry rest ih =>
    rw [swapErase, erase]
    split
    · cases last : rest.getLast? with
      | none => rw [List.getLast?_eq_none_iff.mp last]
      | some entry =>
        obtain ⟨start, rfl⟩ := List.getLast?_eq_some_iff.mp last
        rw [List.dropLast_concat]
        exact (List.perm_append_singleton entry start).symm
    · exact ih.cons _

theorem erase_append_of_fresh (fresh : name ∉ keys table) (more : Table α) :
    erase (table ++ more) name = table ++ erase more name := by
  induction table with
  | nil => rfl
  | cons entry rest ih =>
    obtain ⟨first, old⟩ := entry
    rw [keys_cons, List.mem_cons, not_or] at fresh
    rw [List.cons_append, erase, if_neg (Ne.symm fresh.1), ih fresh.2, List.cons_append]

theorem mapValues_eq_self_iff {f : α → α} : mapValues f table = table ↔ ∀ entry ∈ table, f entry.2 = entry.2 := by
  induction table with
  | nil => simp [mapValues]
  | cons entry rest ih =>
    obtain ⟨name, value⟩ := entry
    simp only [mapValues, List.map_cons, List.cons.injEq, Prod.mk.injEq, true_and, List.forall_mem_cons] at ih ⊢
    rw [ih]

theorem lookup_mapValues (f : α → β) (table : Table α) (name : String) :
    (mapValues f table).lookup name = (table.lookup name).map f := by
  induction table with
  | nil => rfl
  | cons entry rest ih =>
    change ((entry.1, f entry.2) :: mapValues f rest).lookup name = _
    rw [List.lookup_cons, List.lookup_cons, ih]
    cases name == entry.1 <;> rfl

end Table

end Schemata
