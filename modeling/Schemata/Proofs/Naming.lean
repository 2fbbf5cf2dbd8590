import Mathlib.Data.List.Nodup
import Mathlib.Data.List.Perm.Subperm
import Schemata.Naming

namespace Schemata

namespace NameAllocator

/-- Different numbers make different candidates. -/
theorem candidate_injective (base : String) : Function.Injective fun number : Nat => base ++ toString number := by
  intro a b same
  have texts := congrArg String.toList same
  simp only [String.toList_append, List.append_cancel_left_eq, Nat.toString_eq_ofList_toDigits,
    String.toList_ofList] at texts
  have numbers := congrArg (Nat.ofDigitChars 10 · 0) texts
  simpa only [Nat.ofDigitChars_ten_toDigits] using numbers

/-- The search stops at the first number that makes the base free, or at the last one it may try. -/
theorem firstFree_cases (taken : List String) (base : String) (tries number : Nat) :
    ∃ last, number ≤ last ∧ firstFree taken base tries number = base ++ toString last ∧
      (∀ earlier, number ≤ earlier → earlier < last → base ++ toString earlier ∈ taken) ∧
      (base ++ toString last ∉ taken ∨ last = number + tries) := by
  induction tries generalizing number with
  | zero => exact ⟨number, Nat.le_refl _, rfl, fun earlier above below => by omega, Or.inr rfl⟩
  | succ tries ih =>
    rw [firstFree]
    by_cases used : base ++ toString number ∈ taken
    · rw [if_pos used]
      obtain ⟨last, above, same, all, stops⟩ := ih (number + 1)
      refine ⟨last, by omega, same, fun earlier lower upper => ?_, stops.imp_right fun full => by omega⟩
      rcases Nat.eq_or_lt_of_le lower with rfl | later
      · exact used
      · exact all earlier later upper
    · rw [if_neg used]
      exact ⟨number, Nat.le_refl _, rfl, fun earlier above below => by omega, Or.inl used⟩

/-- Not all of more candidates than there are names taken can be taken. -/
theorem exists_free (taken : List String) (base : String) :
    ∃ number, 2 ≤ number ∧ number ≤ 2 + taken.length ∧ base ++ toString number ∉ taken := by
  by_contra none
  push Not at none
  have distinct : ((List.range' 2 (taken.length + 1)).map fun number => base ++ toString number).Nodup :=
    List.Nodup.map (candidate_injective base) List.nodup_range'
  have contained : ((List.range' 2 (taken.length + 1)).map fun number => base ++ toString number) ⊆ taken := by
    intro candidate member
    obtain ⟨number, between, rfl⟩ := List.mem_map.mp member
    rw [List.mem_range'_1] at between
    exact none number between.1 (by omega)
  have short := (List.subperm_of_subset distinct contained).length_le
  simp only [List.length_map, List.length_range'] at short
  omega

/-- The name is the base where that is free, else the base with the smallest number from 2 on that makes it free. -/
inductive FirstFree (taken : List String) (base : String) : String → Prop
  | base (free : base ∉ taken) : FirstFree taken base base
  | numbered (number : Nat) (used : base ∈ taken) (above : 2 ≤ number) (free : base ++ toString number ∉ taken)
      (least : ∀ earlier, 2 ≤ earlier → earlier < number → base ++ toString earlier ∈ taken) :
      FirstFree taken base (base ++ toString number)

theorem freeName_firstFree (names : NameAllocator) (base : String) :
    FirstFree names.taken base (names.freeName base) := by
  rw [freeName]
  by_cases used : base ∈ names.taken
  · rw [if_pos used]
    obtain ⟨last, above, same, all, stops⟩ := firstFree_cases names.taken base names.taken.length 2
    have free : base ++ toString last ∉ names.taken := by
      rcases stops with free | full
      · exact free
      · obtain ⟨number, lower, upper, free⟩ := exists_free names.taken base
        rcases Nat.eq_or_lt_of_le upper with limit | earlier
        · rwa [full, ← limit]
        · exact absurd (all number lower (by omega)) free
    rw [same]
    exact .numbered last used above free all
  · rw [if_neg used]
    exact .base used

theorem FirstFree.not_mem {taken : List String} {base name : String} (first : FirstFree taken base name) :
    name ∉ taken := by
  cases first with
  | base free => exact free
  | numbered number used above free least => exact free

theorem freeName_not_mem (names : NameAllocator) (base : String) : names.freeName base ∉ names.taken :=
  (freeName_firstFree names base).not_mem

/-- The names are given for the bases, one after the other, each the first that is free at its turn. -/
inductive Named : List String → List String → List String → Prop
  | nil (taken : List String) : Named taken [] []
  | cons {taken bases names : List String} {base name : String} (first : FirstFree taken base name)
      (others : Named (name :: taken) bases names) : Named taken (base :: bases) (name :: names)

theorem allocateAll_named (names : NameAllocator) (bases : List String) :
    Named names.taken bases (names.allocateAll bases).1 := by
  induction bases generalizing names with
  | nil => exact .nil _
  | cons base rest ih => exact .cons (freeName_firstFree names base) (ih (names.allocate base).2)

/-- What the bases have and a number behind them keeps, the names have. -/
theorem Named.forall_mem {P : String → Prop} {taken bases names : List String} (named : Named taken bases names)
    (numbered : ∀ base, P base → ∀ number : Nat, P (base ++ toString number)) (each : ∀ base ∈ bases, P base) :
    ∀ name ∈ names, P name := by
  induction named with
  | nil taken => exact fun name member => absurd member List.not_mem_nil
  | cons first others ih =>
    obtain ⟨here, later⟩ := List.forall_mem_cons.mp each
    refine List.forall_mem_cons.mpr ⟨?_, ih later⟩
    cases first with
    | base free => exact here
    | numbered number used above free least => exact numbered _ here number

/-- On the way from one allocator to another, these names were given: all different, none taken before, all taken
after. -/
structure Gives (before after : NameAllocator) (names : List String) : Prop where
  distinct : names.Nodup
  free : ∀ name ∈ names, name ∉ before.taken
  taken : ∀ name, name ∈ after.taken ↔ name ∈ before.taken ∨ name ∈ names

theorem gives_nil (names : NameAllocator) : names.Gives names [] where
  distinct := List.nodup_nil
  free := by simp
  taken := by simp

theorem Gives.append {first second third : NameAllocator} {names more : List String} (one : first.Gives second names)
    (two : second.Gives third more) : first.Gives third (names ++ more) where
  distinct := by
    refine List.nodup_append.mpr ⟨one.distinct, two.distinct, ?_⟩
    rintro name early _ late rfl
    exact two.free name late ((one.taken name).mpr (Or.inr early))
  free := by
    intro name member used
    rcases List.mem_append.mp member with early | late
    · exact one.free name early used
    · exact two.free name late ((one.taken name).mpr (Or.inl used))
  taken := by
    intro name
    rw [two.taken, one.taken, List.mem_append, or_assoc]

theorem allocate_gives (names : NameAllocator) (base : String) :
    names.Gives (names.allocate base).2 [(names.allocate base).1] where
  distinct := List.nodup_singleton _
  free := by
    intro name member
    rw [List.mem_singleton.mp member]
    exact freeName_not_mem names base
  taken := by
    intro name
    rw [List.mem_singleton, or_comm]
    exact List.mem_cons

theorem allocateAll_gives (names : NameAllocator) (bases : List String) :
    names.Gives (names.allocateAll bases).2 (names.allocateAll bases).1 := by
  induction bases generalizing names with
  | nil => exact gives_nil names
  | cons base rest ih => exact (allocate_gives names base).append (ih (names.allocate base).2)

theorem allocateAll_append (names : NameAllocator) (bases more : List String) :
    names.allocateAll (bases ++ more) =
      ((names.allocateAll bases).1 ++ ((names.allocateAll bases).2.allocateAll more).1,
        ((names.allocateAll bases).2.allocateAll more).2) := by
  induction bases generalizing names with
  | nil => rfl
  | cons base rest ih => simp only [List.cons_append, allocateAll, ih]

theorem length_allocateAll (names : NameAllocator) (bases : List String) :
    (names.allocateAll bases).1.length = bases.length := by
  induction bases generalizing names with
  | nil => rfl
  | cons base rest ih => exact congrArg (· + 1) (ih (names.allocate base).2)

end NameAllocator

end Schemata
