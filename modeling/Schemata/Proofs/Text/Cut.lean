import Mathlib.Data.List.Basic
import Schemata.Text.Cut

namespace Schemata

namespace Text

theorem after?_eq_some_iff {start text rest : List Char} : after? start text = some rest ↔ text = start ++ rest := by
  induction start generalizing text with
  | nil => simp only [after?, Option.some.injEq, List.nil_append]
  | cons s start ih =>
    cases text with
    | nil => simp [after?]
    | cons c text =>
      unfold after?
      by_cases same : s = c
      · rw [if_pos same, ih, List.cons_append, same, List.cons.injEq]
        simp only [true_and]
      · rw [if_neg same]
        simp [Ne.symm same]

theorem dropStart?_eq_some_iff {start text rest : String} :
    dropStart? start text = some rest ↔ text = start ++ rest := by
  simp only [dropStart?, Option.map_eq_some_iff, after?_eq_some_iff]
  constructor
  · rintro ⟨letters, same, rfl⟩
    rw [← String.toList_inj, same, String.toList_append, String.toList_ofList]
  · rintro rfl
    exact ⟨rest.toList, String.toList_append, String.ofList_toList⟩

@[simp] theorem dropStart?_append (start rest : String) : dropStart? start (start ++ rest) = some rest :=
  dropStart?_eq_some_iff.mpr rfl

theorem startsWith_iff {text start : String} : startsWith text start ↔ ∃ rest, text = start ++ rest := by
  have cut : startsWith text start = (dropStart? start text).isSome := by
    simp only [startsWith, dropStart?, Option.isSome_map]
  simp only [cut, Option.isSome_iff_exists, dropStart?_eq_some_iff]

/-- A text starts with at most one of two texts that differ before either ends. -/
theorem dropStart?_eq_none {start start' : String} (rest : String)
    (differ : ∀ more more' : List Char, start.toList ++ more ≠ start'.toList ++ more') :
    dropStart? start (start' ++ rest) = none := by
  cases cut : dropStart? start (start' ++ rest) with
  | none => rfl
  | some more =>
    have same := congrArg String.toList (dropStart?_eq_some_iff.mp cut)
    rw [String.toList_append, String.toList_append] at same
    exact absurd same.symm (differ _ _)

variable {separates : Char → Bool} {text piece : List Char}

theorem pieces_ne_nil : pieces separates text ≠ [] := by
  cases text with
  | nil => exact List.cons_ne_nil _ _
  | cons c rest =>
    rw [pieces]
    split
    · exact List.cons_ne_nil _ _
    · split <;> exact List.cons_ne_nil _ _

theorem separates_of_mem_pieces (member : piece ∈ pieces separates text) : ∀ c ∈ piece, separates c = false := by
  induction text generalizing piece with
  | nil =>
    rw [List.mem_singleton.mp member]
    exact fun c inside => absurd inside List.not_mem_nil
  | cons c rest ih =>
    rw [pieces] at member
    cases further : pieces separates rest with
    | nil => exact absurd further pieces_ne_nil
    | cons first others =>
      rw [further] at member ih
      change piece ∈ if separates c then [] :: first :: others else (c :: first) :: others at member
      by_cases cut : separates c
      · rw [if_pos cut] at member
        rcases List.mem_cons.mp member with rfl | later
        · exact fun c inside => absurd inside List.not_mem_nil
        · exact ih later
      · rw [if_neg cut] at member
        rcases List.mem_cons.mp member with rfl | later
        · exact List.forall_mem_cons.mpr ⟨Bool.eq_false_iff.mpr cut, ih List.mem_cons_self⟩
        · exact ih (List.mem_cons_of_mem _ later)

/-- A text without separators is one piece. -/
theorem pieces_of_plain (plain : ∀ c ∈ text, separates c = false) : pieces separates text = [text] := by
  induction text with
  | nil => rfl
  | cons c text ih =>
    obtain ⟨here, later⟩ := List.forall_mem_cons.mp plain
    simp only [pieces, ih later, here, Bool.false_eq_true, if_false]

/-- The first piece ends at the first separator. -/
theorem pieces_append {c : Char} (plain : ∀ c ∈ text, separates c = false) (cut : separates c) (rest : List Char) :
    pieces separates (text ++ c :: rest) = text :: pieces separates rest := by
  induction text with
  | nil =>
    obtain ⟨first, others, further⟩ := List.exists_cons_of_ne_nil (show pieces separates rest ≠ [] from pieces_ne_nil)
    simp only [List.nil_append, pieces, further, cut, if_true]
  | cons first text ih =>
    obtain ⟨here, later⟩ := List.forall_mem_cons.mp plain
    simp only [List.cons_append, pieces, ih later, here, Bool.false_eq_true, if_false]

end Text

end Schemata
