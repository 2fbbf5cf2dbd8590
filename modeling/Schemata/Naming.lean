import Schemata.Text.Cut

namespace Schemata

/-- The text in words that start with a capital: words are runs of ASCII letters and digits, joined without
what stood between them. -/
def pascalCase (name : String) : String :=
  String.ofList ((Text.pieces (fun c => !c.isAlphanum) name.toList).flatMap Text.capitalized)

/-- The names given so far and those that must not be given. -/
structure NameAllocator where
  taken : List String := []

namespace NameAllocator

/-- An allocator for which the names are taken. -/
def reserving (names : List String) : NameAllocator := ⟨names⟩

/-- The first of `base ++ number`, `base ++ (number + 1)`, … that is not taken; after `tries` of them, the
next one. -/
def firstFree (taken : List String) (base : String) : Nat → Nat → String
  | 0, number => base ++ toString number
  | tries + 1, number =>
    let candidate := base ++ toString number
    if candidate ∈ taken then firstFree taken base tries (number + 1) else candidate

/-- The name that `allocate` gives: the base when it is free, else the base with the smallest free number. -/
def freeName (names : NameAllocator) (base : String) : String :=
  if base ∈ names.taken then firstFree names.taken base names.taken.length 2 else base

/-- Gives a name that is not taken, and takes it. -/
def allocate (names : NameAllocator) (base : String) : String × NameAllocator :=
  let name := names.freeName base
  (name, ⟨name :: names.taken⟩)

/-- One name for each base, in order. -/
def allocateAll (names : NameAllocator) : List String → List String × NameAllocator
  | [] => ([], names)
  | base :: rest =>
    let (name, names) := names.allocate base
    let (others, names) := names.allocateAll rest
    (name :: others, names)

end NameAllocator

end Schemata
