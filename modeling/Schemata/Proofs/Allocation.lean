import Schemata.Proofs.Naming

namespace Schemata

namespace NameAllocator

/-- The search from a number on: the first candidate that is free, however far that is. -/
inductive Search (taken : List String) (base : String) : Nat → String → Prop
  | stop {number : Nat} (free : base ++ toString number ∉ taken) : Search taken base number (base ++ toString number)
  | next {number : Nat} {name : String} (used : base ++ toString number ∈ taken)
      (later : Search taken base (number + 1) name) : Search taken base number name

/-- A call gives the base if that is free, else what the search from 2 on finds. -/
inductive Call (taken : List String) (base : String) : String → Prop
  | base (free : base ∉ taken) : Call taken base base
  | search {name : String} (used : base ∈ taken) (found : Search taken base 2 name) : Call taken base name

variable {taken : List String} {base name other : String} {number last : Nat}

theorem Search.unique (one : Search taken base number name) (two : Search taken base number other) : name = other := by
  induction one with
  | stop free =>
    cases two with
    | stop _ => rfl
    | next used _ => exact absurd used free
  | next used _ ih =>
    cases two with
    | stop free => exact absurd used free
    | next _ later => exact ih later

/-- The search goes past the candidates that are taken. -/
theorem search_of_least (above : number ≤ last) (free : base ++ toString last ∉ taken)
    (least : ∀ earlier, number ≤ earlier → earlier < last → base ++ toString earlier ∈ taken) :
    Search taken base number (base ++ toString last) := by
  obtain ⟨gap, rfl⟩ := Nat.exists_eq_add_of_le above
  induction gap generalizing number with
  | zero => exact .stop free
  | succ gap ih =>
    have used := least number (Nat.le_refl _) (by omega)
    rw [show number + (gap + 1) = number + 1 + gap by omega] at free least ⊢
    exact .next used (ih (by omega) free fun earlier lower upper => least earlier (by omega) upper)

theorem Call.unique (one : Call taken base name) (two : Call taken base other) : name = other := by
  cases one with
  | base free =>
    cases two with
    | base _ => rfl
    | search used _ => exact absurd used free
  | search used found =>
    cases two with
    | base free => exact absurd used free
    | search _ later => exact found.unique later

theorem FirstFree.call (first : FirstFree taken base name) : Call taken base name := by
  cases first with
  | base free => exact .base free
  | numbered number used above free least => exact .search used (search_of_least above free least)

/-- A call gives exactly one name, and the allocator gives that. -/
theorem call_iff (names : NameAllocator) (base result : String) :
    Call names.taken base result ↔ result = (names.allocate base).1 := by
  have call := (freeName_firstFree names base).call
  constructor
  · exact fun given => given.unique call
  · rintro rfl
    exact call

/-- A call with the states before and after it: it ends with the name and no other, the name is the base or has the
smallest number that makes it free, and only the name becomes taken. -/
structure Turn (before : NameAllocator) (base name : String) (after : NameAllocator) : Prop where
  returns : ∀ result, Call before.taken base result ↔ result = name
  first : FirstFree before.taken base name
  grows : ∀ other, other ∈ after.taken ↔ other ∈ before.taken ∨ other = name

theorem turn_allocate (names : NameAllocator) (base : String) :
    names.Turn base (names.allocate base).1 (names.allocate base).2 where
  returns := call_iff names base
  first := freeName_firstFree names base
  grows other := by
    rw [(allocate_gives names base).taken, List.mem_singleton]

/-- At every place of a run stands one call, in the state that the bases before it lead to. -/
theorem turn_allocateAll (names : NameAllocator) {bases : List String} {place : Nat} (listed : bases[place]? = some base) :
    ∃ name, (names.allocateAll bases).1[place]? = some name ∧
      (names.allocateAll (bases.take place)).2.Turn base name (names.allocateAll (bases.take (place + 1))).2 := by
  induction bases generalizing names place with
  | nil => cases listed
  | cons first rest ih =>
    cases place with
    | zero =>
      cases listed
      exact ⟨_, rfl, turn_allocate names base⟩
    | succ place => exact ih (names.allocate first).2 listed

/-- Every call of a run ends with one name: the base where that is free, else the base with the smallest number from 2 on
that makes it free; and that name alone becomes taken. So the names of a run are all different, and none was reserved. -/
theorem allocateAll_turns (reserved bases : List String) :
    let run := (reserving reserved).allocateAll bases
    let state := fun place => ((reserving reserved).allocateAll (bases.take place)).2
    (∀ place base, bases[place]? = some base →
      ∃ name, run.1[place]? = some name ∧ (state place).Turn base name (state (place + 1))) ∧
    (state 0).taken = reserved ∧ state bases.length = run.2 ∧ run.1.length = bases.length ∧
    (∀ name, name ∈ run.2.taken ↔ name ∈ reserved ∨ name ∈ run.1) ∧
    run.1.Nodup ∧ ∀ name ∈ run.1, name ∉ reserved := by
  intro run state
  have gives := allocateAll_gives (reserving reserved) bases
  refine ⟨fun place base listed => turn_allocateAll _ listed, rfl, ?_, length_allocateAll _ _, gives.taken,
    gives.distinct, gives.free⟩
  simp only [state, run, List.take_length]

/-- Bases that are others with a number behind them: what is given for one is a candidate for the next. -/
theorem allocateAll_turns_pet :
    let bases := ["Pet2", "Pet", "Pet", "Pet2", "Pet22"]
    let state := fun place => ((reserving ["Pet"]).allocateAll (bases.take place)).2
    bases[3]? = some "Pet2" ∧ (state 3).taken = ["Pet4", "Pet3", "Pet2", "Pet"] ∧
      (state 3).Turn "Pet2" "Pet22" (state 4) ∧
      ((reserving ["Pet"]).allocateAll bases).1 = ["Pet2", "Pet3", "Pet4", "Pet22", "Pet222"] := by
  intro bases state
  have names : ((reserving ["Pet"]).allocateAll bases).1 = ["Pet2", "Pet3", "Pet4", "Pet22", "Pet222"] := by
    decide +kernel
  obtain ⟨turns, -⟩ := allocateAll_turns ["Pet"] bases
  obtain ⟨name, there, turn⟩ := turns 3 "Pet2" rfl
  rw [names] at there
  cases there
  exact ⟨rfl, by decide +kernel, turn, names⟩

end NameAllocator

end Schemata
