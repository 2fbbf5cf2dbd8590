import Schemata.Proofs.Text.Blank
import Schemata.Proofs.Text.Cut

namespace Schemata

namespace Text

variable {line letters : List Char}

theorem linesFrom_append (current rest : List Char) (plain : '\n' ∉ letters) :
    linesFrom current (letters ++ rest) = linesFrom (letters.reverse ++ current) rest := by
  induction letters generalizing current with
  | nil => rfl
  | cons c letters ih =>
    obtain ⟨other, later⟩ := not_or.mp (mt List.mem_cons.mpr plain)
    rw [List.cons_append, linesFrom, if_neg (Ne.symm other), ih (c :: current) later, List.reverse_cons, List.append_assoc,
      List.singleton_append]

/-- What follows a line feed has its own lines. -/
theorem linesFrom_subset (current before rest : List Char) : linesFrom [] rest ⊆ linesFrom current (before ++ '\n' :: rest) := by
  induction before generalizing current with
  | nil =>
    rw [List.nil_append, linesFrom, if_pos rfl]
    exact List.subset_cons_self _ _
  | cons c before ih =>
    rw [List.cons_append, linesFrom]
    split
    · exact List.subset_cons_of_subset _ (ih [])
    · exact ih (c :: current)

theorem withoutReturn_eq_self (other : line.getLast? ≠ some '\r') : withoutReturn line = line := by
  unfold withoutReturn
  split
  · rename_i last
    exact absurd last other
  · rfl

theorem withoutReturn_of_plain (plain : '\r' ∉ line) : withoutReturn line = line :=
  withoutReturn_eq_self (mt List.mem_of_getLast? plain)

/-- A text starts with its first line. -/
theorem mem_lines_append {rest : List Char} (some : line ≠ []) (plain : '\n' ∉ line) (bare : '\r' ∉ line)
    (ends : rest = [] ∨ ∃ more, rest = '\n' :: more) : line ∈ linesFrom [] (line ++ rest) := by
  rw [linesFrom_append [] rest plain, List.append_nil]
  rcases ends with rfl | ⟨more, rfl⟩
  · rw [linesFrom, if_neg (by simpa using some), List.reverse_reverse]
    exact List.mem_singleton_self line
  · rw [linesFrom, if_pos rfl, List.reverse_reverse, withoutReturn_of_plain bare]
    exact List.mem_cons_self

/-- Each of the lines that a text is joined from is one of its lines. -/
theorem mem_lines_intercalate {lines : List String} {line : String} (member : line ∈ lines) (some : line.toList ≠ [])
    (plain : '\n' ∉ line.toList) (bare : '\r' ∉ line.toList) :
    line.toList ∈ Text.lines (String.intercalate "\n" lines).toList := by
  obtain ⟨before, after, rfl⟩ := List.append_of_mem member
  have tail : ∃ rest : List Char, (String.intercalate "\n" (line :: after)).toList = line.toList ++ rest ∧
      (rest = [] ∨ ∃ more, rest = '\n' :: more) := by
    cases after with
    | nil => exact ⟨[], by rw [String.intercalate_singleton, List.append_nil], Or.inl rfl⟩
    | cons next others =>
      refine ⟨'\n' :: (String.intercalate "\n" (next :: others)).toList, ?_, Or.inr ⟨_, rfl⟩⟩
      rw [String.intercalate_cons_cons, String.toList_append, String.toList_append, List.append_assoc]
      rfl
  obtain ⟨rest, whole, ends⟩ := tail
  have here := mem_lines_append some plain bare ends
  rw [← whole] at here
  cases before with
  | nil => exact here
  | cons first others =>
    rw [String.intercalate_append_of_ne_nil (List.cons_ne_nil _ _) (List.cons_ne_nil _ _), String.toList_append,
      String.toList_append, List.append_assoc]
    exact linesFrom_subset [] _ _ here

/-- The lines one after the other, each with a line feed behind it. -/
def joined (lines : List (List Char)) : List Char := lines.flatMap fun line => line ++ ['\n']

/-- The lines are such as can be read off a text: they have no line feed, and nothing at their ends that reading takes away. -/
def Settled (lines : List (List Char)) : Prop := ∀ line ∈ lines, '\n' ∉ line ∧ Bare line

variable {lines : List (List Char)} {text : List Char}

theorem withoutReturn_of_bare (bare : Bare line) : withoutReturn line = line :=
  withoutReturn_eq_self fun last => absurd (bare _ last) (by decide)

theorem joined_cons_append (line : List Char) (lines : List (List Char)) (rest : List Char) :
    joined (line :: lines) ++ rest = line ++ '\n' :: (joined lines ++ rest) := by
  simp [joined]

theorem joined_append (lines more : List (List Char)) : joined (lines ++ more) = joined lines ++ joined more :=
  List.flatMap_append

theorem joined_concat (lines : List (List Char)) (line : List Char) :
    joined (lines ++ [line]) = joined lines ++ line ++ ['\n'] := by
  rw [joined_append, List.append_assoc]
  exact congrArg (joined lines ++ ·) (List.flatMap_singleton ..)

/-- Lines that stand in front of a text are lines of the whole. -/
theorem lines_joined_append (settled : Settled lines) (rest : List Char) :
    Text.lines (joined lines ++ rest) = lines ++ Text.lines rest := by
  induction lines with
  | nil => rfl
  | cons first others ih =>
    obtain ⟨⟨plain, bare⟩, later⟩ := List.forall_mem_cons.mp settled
    rw [joined_cons_append, Text.lines, linesFrom_append [] _ plain, List.append_nil, linesFrom, if_pos rfl, List.reverse_reverse,
      withoutReturn_of_bare bare, ← Text.lines, ih later, List.cons_append]

theorem lines_joined (settled : Settled lines) : Text.lines (joined lines) = lines := by
  have whole := lines_joined_append settled []
  rwa [List.append_nil, show Text.lines [] = [] from rfl, List.append_nil] at whole

theorem beq_of_plain (plain : '\n' ∉ line) : ∀ c ∈ line, (c == '\n') = false := by
  intro c inside
  refine beq_false_of_ne ?_
  rintro rfl
  exact plain inside

/-- What stands between the line feeds are the lines, and then what is behind the last of them. -/
theorem pieces_joined_append (settled : Settled lines) (rest : List Char) :
    pieces (· == '\n') (joined lines ++ rest) = lines ++ pieces (· == '\n') rest := by
  induction lines with
  | nil => rfl
  | cons first others ih =>
    obtain ⟨⟨plain, -⟩, later⟩ := List.forall_mem_cons.mp settled
    rw [joined_cons_append, pieces_append (beq_of_plain plain) (beq_self_eq_true _), ih later, List.cons_append]

theorem lines_of_plain (some : line ≠ []) (plain : '\n' ∉ line) : Text.lines line = [line] := by
  have whole := linesFrom_append [] [] plain
  rw [List.append_nil, List.append_nil] at whole
  rw [Text.lines, whole, linesFrom, if_neg (by simpa using some), List.reverse_reverse]

theorem withoutReturn_part (line : List Char) : withoutReturn line <:+: line := by
  unfold withoutReturn
  split
  · exact List.IsPrefix.isInfix <| List.dropLast_prefix line
  · exact List.infix_rfl

theorem infix_of_mem_linesFrom {current : List Char} (member : line ∈ linesFrom current text) :
    line <:+: current.reverse ++ text := by
  induction text generalizing current with
  | nil =>
    rw [linesFrom] at member
    split at member
    · cases member
    · obtain rfl := List.mem_singleton.mp member
      exact (List.prefix_append ..).isInfix
  | cons c rest ih =>
    rw [linesFrom] at member
    split at member
    · rcases List.mem_cons.mp member with rfl | later
      · exact (withoutReturn_part _).trans (List.prefix_append ..).isInfix
      · have inside : line <:+: rest := by simpa using ih later
        exact inside.trans ((List.suffix_cons c rest).trans (List.suffix_append ..)).isInfix
    · have inside := ih member
      rwa [List.reverse_cons, List.append_assoc, List.singleton_append] at inside

theorem infix_of_mem_lines (member : line ∈ Text.lines text) : line <:+: text := infix_of_mem_linesFrom member

theorem plain_of_mem_linesFrom {current : List Char} (plain : '\n' ∉ current) (member : line ∈ linesFrom current text) :
    '\n' ∉ line := by
  induction text generalizing current with
  | nil =>
    rw [linesFrom] at member
    split at member
    · cases member
    · rw [List.mem_singleton.mp member, List.mem_reverse]
      exact plain
  | cons c rest ih =>
    rw [linesFrom] at member
    split at member
    · rcases List.mem_cons.mp member with rfl | later
      · exact fun inside => plain (List.mem_reverse.mp ((withoutReturn_part _).subset inside))
      · exact ih List.not_mem_nil later
    · rename_i other
      exact ih (fun inside => (List.mem_cons.mp inside).elim (fun same => other same.symm) plain) member

theorem plain_of_mem_lines (member : line ∈ Text.lines text) : '\n' ∉ line := plain_of_mem_linesFrom List.not_mem_nil member

theorem lines_eq_nil_iff : Text.lines text = [] ↔ text = [] := by
  constructor
  · have started {current rest : List Char} (some : current ≠ []) : linesFrom current rest ≠ [] := by
      induction rest generalizing current with
      | nil => simp [linesFrom, some]
      | cons c rest ih =>
        rw [linesFrom]
        split
        · exact List.cons_ne_nil _ _
        · exact ih (List.cons_ne_nil _ _)
    intro none
    cases text with
    | nil => rfl
    | cons c rest =>
      rw [Text.lines, linesFrom] at none
      split at none
      · cases none
      · exact absurd none (started (List.cons_ne_nil _ _))
  · rintro rfl
    rfl

/-- What holds of the characters of a line end holds of a text when it holds of its lines. -/
theorem forall_mem_lines_iff {P : Char → Prop} (feed : P '\n') (back : P '\r') :
    (∀ line ∈ Text.lines text, ∀ c ∈ line, P c) ↔ ∀ c ∈ text, P c := by
  have from_current (current : List Char) :
      (∀ line ∈ linesFrom current text, ∀ c ∈ line, P c) ↔ ∀ c ∈ current.reverse ++ text, P c := by
    induction text generalizing current with
    | nil => cases current <;> simp [linesFrom]
    | cons c rest ih =>
      have returned (line : List Char) : (∀ c ∈ withoutReturn line, P c) ↔ ∀ c ∈ line, P c := by
        unfold withoutReturn
        split
        · rename_i last
          obtain ⟨front, rfl⟩ := List.getLast?_eq_some_iff.mp last
          rw [List.dropLast_concat, List.forall_mem_append, List.forall_mem_singleton]
          exact (and_iff_left back).symm
        · rfl
      rw [linesFrom]
      split
      · rename_i same
        subst same
        rw [List.forall_mem_cons, returned, ih [], List.reverse_nil, List.nil_append, List.forall_mem_append,
          List.forall_mem_cons]
        exact and_congr_right fun _ => (and_iff_right feed).symm
      · rw [ih, List.reverse_cons, List.append_assoc, List.singleton_append]
  exact from_current []

end Text

end Schemata
