import Mathlib.Data.List.DropRight
import Schemata.Text.Blank

namespace Schemata

namespace Text

/-- The text does not end in a blank. -/
def Bare (text : List Char) : Prop := ∀ c ∈ text.getLast?, isBlank c = false

variable {test : Char → Bool} {text tail : List Char}

theorem dropEndWhile_eq (test : Char → Bool) (text : List Char) : dropEndWhile test text = text.rdropWhile test := rfl

theorem dropEndWhile_eq_nil_iff : dropEndWhile test text = [] ↔ ∀ c ∈ text, test c := List.rdropWhile_eq_nil_iff

theorem dropEndWhile_append (dropped : ∀ c ∈ tail, test c) :
    dropEndWhile test (text ++ tail) = dropEndWhile test text := by
  induction tail using List.reverseRecOn with
  | nil => rw [List.append_nil]
  | append_singleton tail c ih =>
    rw [List.forall_mem_append] at dropped
    rw [← List.append_assoc, dropEndWhile_eq, List.rdropWhile_concat_pos _ _ _ (dropped.2 c List.mem_cons_self)]
    exact ih dropped.1

theorem dropEndWhile_eq_self_iff : dropEndWhile test text = text ↔ ∀ c ∈ text.getLast?, test c = false := by
  induction text using List.reverseRecOn with
  | nil => simp [dropEndWhile]
  | append_singleton text c _ =>
    rw [dropEndWhile_eq, List.rdropWhile_eq_self_iff]
    simp

theorem exists_dropEndWhile (test : Char → Bool) (text : List Char) :
    ∃ tail, text = dropEndWhile test text ++ tail ∧ ∀ c ∈ tail, test c := by
  induction text using List.reverseRecOn with
  | nil => exact ⟨[], rfl, fun c member => absurd member List.not_mem_nil⟩
  | append_singleton text c ih =>
    rw [dropEndWhile_eq, List.rdropWhile_concat]
    split
    · rename_i dropped
      obtain ⟨tail, whole, each⟩ := ih
      refine ⟨tail ++ [c], ?_, List.forall_mem_append.mpr ⟨each, List.forall_mem_singleton.mpr dropped⟩⟩
      rw [← List.append_assoc, ← dropEndWhile_eq, ← whole]
    · exact ⟨[], (List.append_nil _).symm, fun c member => absurd member List.not_mem_nil⟩

theorem trimEnd_of_bare (bare : Bare text) : trimEnd text = text := dropEndWhile_eq_self_iff.mpr bare

theorem bare_trimEnd (text : List Char) : Bare (trimEnd text) :=
  dropEndWhile_eq_self_iff.mp (List.rdropWhile_idempotent isBlank text)

theorem trimEnd_isPrefix (text : List Char) : trimEnd text <+: text := List.rdropWhile_prefix isBlank text

theorem bare_append (visible : text ≠ []) (bare : Bare text) (front : List Char) : Bare (front ++ text) := by
  intro c last
  rw [List.getLast?_append_of_ne_nil _ visible] at last
  exact bare c last

theorem bare_concat {c : Char} (visible : isBlank c = false) (front : List Char) : Bare (front ++ [c]) := by
  intro d last
  rw [List.getLast?_concat, Option.mem_some_iff] at last
  rw [← last]
  exact visible

theorem trim_eq_nil_iff : trim text = [] ↔ ∀ c ∈ text, isBlank c := by
  rw [trim, trimEnd, dropEndWhile_eq_nil_iff]
  constructor
  · intro blank
    have nothing : text.dropWhile isBlank = [] := by
      by_contra some
      -- what is left begins with a visible character
      have visible := List.head_dropWhile_not isBlank some
      exact Bool.false_ne_true (visible.symm.trans (blank _ (List.head_mem some)))
    exact List.dropWhile_eq_nil_iff.mp nothing
  · exact fun blank c member => blank c ((List.dropWhile_suffix _).subset member)

end Text

end Schemata
