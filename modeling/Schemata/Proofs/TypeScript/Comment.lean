import Mathlib.Data.List.Chain
import Schemata.Proofs.TypeScript.Layout
import Schemata.TypeScript.Text

namespace Schemata

namespace TsText

/-- A star and a slash side by side occur once, right before the line feed with which the text ends. -/
def ClosesOnce (text : List Char) : Prop :=
  ∀ after, (∃ before, text = before ++ '*' :: '/' :: after) ↔ after = ['\n']

/-- Nowhere stands a slash behind a star. -/
def Unclosed (text : List Char) : Prop := text.IsChain fun c d => ¬ (c = '*' ∧ d = '/')

/-- Only the last line ends a comment, and does so with its last two characters. -/
def Closing (lines : List (List Char)) : Prop :=
  ∃ front last, lines = front ++ [last ++ ['*', '/']] ∧ (∀ line ∈ front, Unclosed line) ∧ Unclosed (last ++ ['*'])

variable {text line : List Char} {lines : List (List Char)} {style : FormatStyle}

theorem Unclosed.part (unclosed : Unclosed text) (inside : line <:+: text) : Unclosed line :=
  List.IsChain.infix unclosed inside

theorem Unclosed.cons {c : Char} (other : c ≠ '*') (unclosed : Unclosed text) : Unclosed (c :: text) :=
  List.isChain_cons.mpr ⟨fun _ _ both => other both.1, unclosed⟩

/-- Texts can be joined when the second does not begin with a slash. -/
theorem Unclosed.append {c : Char} (other : c ≠ '/') (first : Unclosed line) (second : Unclosed (c :: text)) :
    Unclosed (line ++ c :: text) := by
  refine List.isChain_append.mpr ⟨first, second, fun d _ e head both => other ?_⟩
  rw [List.head?_cons, Option.mem_some_iff] at head
  exact head.trans both.2

theorem unclosed_spaces_append {spaces : Nat} (unclosed : Unclosed text) : Unclosed (List.replicate spaces ' ' ++ text) := by
  induction spaces with
  | zero => exact unclosed
  | succ spaces ih => exact ih.cons (by decide)

theorem unclosed_joined_append (each : ∀ line ∈ lines, Unclosed line) (unclosed : Unclosed text) :
    Unclosed (Text.joined lines ++ text) := by
  induction lines with
  | nil => exact unclosed
  | cons first others ih =>
    obtain ⟨here, later⟩ := List.forall_mem_cons.mp each
    rw [Text.joined_cons_append]
    exact here.append (by decide) ((ih later).cons (by decide))

theorem not_unclosed (before after : List Char) : ¬ Unclosed (before ++ '*' :: '/' :: after) := by
  intro unclosed
  have pair : Unclosed ['*', '/'] := unclosed.part ⟨before, after, by simp⟩
  exact (List.isChain_cons_cons.mp pair).1 ⟨rfl, rfl⟩

/-- A text that ends no comment before its last characters do. -/
theorem closesOnce_of_unclosed {before : List Char} (unclosed : Unclosed (before ++ ['*'])) :
    ClosesOnce (before ++ ['*', '/', '\n']) := by
  intro after
  constructor
  · rintro ⟨front, whole⟩
    -- the two cuts of the text are the same, or one of them is further to the left
    rcases List.append_eq_append_iff.mp whole with ⟨between, -, rest⟩ | ⟨between, rfl, rest⟩
    · rcases between with - | ⟨c, - | ⟨d, between⟩⟩
      · simpa [eq_comm] using rest
      · simp at rest
      · have length := congrArg List.length rest
        simp only [List.length_cons, List.length_append, List.length_nil] at length
        omega
    · rcases between with - | ⟨c, - | ⟨d, between⟩⟩
      · simpa using rest
      · simp at rest
      · obtain ⟨rfl, rfl, -⟩ : c = '*' ∧ d = '/' ∧ _ := by simpa [eq_comm] using rest
        rw [List.append_assoc] at unclosed
        exact absurd unclosed (not_unclosed front _)
  · rintro rfl
    exact ⟨before, rfl⟩

/-- A text that is joined from lines of which only the last ends a comment. -/
theorem Closing.closesOnce (closing : Closing lines) : ClosesOnce (Text.joined lines) := by
  obtain ⟨front, last, rfl, each, unclosed⟩ := closing
  have whole := unclosed_joined_append each unclosed
  rw [← List.append_assoc] at whole
  have shape : Text.joined (front ++ [last ++ ['*', '/']]) = Text.joined front ++ last ++ ['*', '/', '\n'] := by
    rw [Text.joined_concat]
    simp only [List.append_assoc, List.cons_append, List.nil_append]
  rw [shape]
  exact closesOnce_of_unclosed whole

theorem bare_closing (front : List Char) : Text.Bare (front ++ ['*', '/']) :=
  Text.bare_append (List.cons_ne_nil _ _) (Text.bare_concat (by decide) ['*']) front

theorem unclosed_relaid {before after : List Char} (relaid : style.Relaid before after) (unclosed : Unclosed before) :
    Unclosed after := by
  cases relaid with
  | blank each => exact List.isChain_nil
  | content spaces visible first bare trailing =>
    exact unclosed_spaces_append (unclosed.part ⟨_, _, rfl⟩)

/-- The layout of the last line ends the comment as the line does. -/
theorem exists_line_closing (style : FormatStyle) (unclosed : Unclosed (line ++ ['*'])) :
    ∃ last, style.line (line ++ ['*', '/']) = last ++ ['*', '/'] ∧ Unclosed (last ++ ['*']) := by
  obtain ⟨spaces, rest, rfl, first⟩ := FormatStyle.exists_leading line
  have head : (rest ++ ['*', '/']).head? ≠ some ' ' := by
    cases rest with
    | nil => decide
    | cons c rest => exact first
  have relaid : style.Relaid (List.replicate spaces ' ' ++ (rest ++ ['*', '/']) ++ []) _ :=
    .content spaces (by simp) head (bare_closing rest) nofun
  refine ⟨List.replicate (spaces / 2 * style.indentWidth + spaces % 2) ' ' ++ rest, ?_, ?_⟩
  · rw [List.append_assoc, List.append_assoc, ← relaid.line_eq, List.append_nil]
  · rw [List.append_assoc]
    refine unclosed_spaces_append (unclosed.part (List.IsSuffix.isInfix ⟨List.replicate spaces ' ', ?_⟩))
    rw [List.append_assoc]

theorem Closing.relaid (closing : Closing lines) (style : FormatStyle) : Closing (lines.map style.line) := by
  obtain ⟨front, last, rfl, each, unclosed⟩ := closing
  obtain ⟨last', same, unclosed'⟩ := exists_line_closing style unclosed
  refine ⟨front.map style.line, last', ?_, List.forall_mem_map.mpr fun line member => ?_, unclosed'⟩
  · rw [List.map_append, List.map_singleton, same]
  · exact unclosed_relaid (FormatStyle.relaid_line line) (each line member)

/-- In any style a text that ends in a visible line is laid out line by line. -/
theorem formatChars_joined (settled : Text.Settled lines) (closing : Closing lines) :
    style.formatChars (Text.joined lines) = Text.joined (lines.map style.line) := by
  have relined : style.relines (Text.joined lines) = lines.map style.line := by
    rw [FormatStyle.relines, Text.lines_joined settled]
  obtain ⟨front, last, parts, -, -⟩ := closing.relaid style
  have kept : FormatStyle.upToLast (lines.map style.line) = lines.map style.line := by
    rw [parts, FormatStyle.upToLast, List.rdropWhile_eq_self_iff]
    simp
  obtain ⟨front, last, rfl, -, -⟩ := closing
  have ended : (Text.joined (front ++ [last ++ ['*', '/']])).getLast? = some '\n' := by
    rw [Text.joined_concat, List.getLast?_concat]
  rw [FormatStyle.formatChars_eq, relined, kept, if_pos ended, ite_self]

theorem head?_escapeCommentEnd (text : List Char) : (escapeCommentEnd text).head? = text.head? := by
  unfold escapeCommentEnd
  split <;> rfl

theorem unclosed_escapeCommentEnd (text : List Char) : Unclosed (escapeCommentEnd text) := by
  induction text using escapeCommentEnd.induct with
  | case1 rest ih =>
    rw [escapeCommentEnd]
    have star : Unclosed ['*'] := List.isChain_singleton _
    exact star.append (by decide) ((ih.cons (by decide)).cons (by decide))
  | case2 c rest other ih =>
    rw [escapeCommentEnd]
    · refine List.isChain_cons.mpr ⟨fun d first both => ?_, ih⟩
      rw [head?_escapeCommentEnd, both.2, Option.mem_def, List.head?_eq_some_iff] at first
      obtain ⟨more, rfl⟩ := first
      exact other more both.1 rfl
    · exact other
  | case3 => exact List.isChain_nil

/-- A line of a comment of several lines, without its line feed. -/
def bodyLine (indent line : List Char) : List Char :=
  match Text.trimEnd line with
  | [] => indent ++ [' ', '*']
  | line => indent ++ [' ', '*', ' '] ++ line

theorem docLine_eq (indent line : List Char) : docLine indent line = bodyLine indent line ++ ['\n'] := by
  unfold docLine bodyLine
  cases Text.trimEnd line <;> simp

/-- The lines of a comment whose content has these lines. -/
def docLines (indent : List Char) : List (List Char) → List (List Char)
  | [] => []
  | [line] => [indent ++ ['/', '*', '*', ' '] ++ line ++ [' '] ++ ['*', '/']]
  | lines => (indent ++ ['/', '*', '*']) :: lines.map (bodyLine indent) ++ [indent ++ [' '] ++ ['*', '/']]

/-- The lines of a description, as they come to stand in a comment. -/
def content (text : List Char) : List (List Char) := Text.lines (escapeCommentEnd (Text.trim text))

theorem docChars_eq (text indent : List Char) : docChars text indent = Text.joined (docLines indent (content text)) := by
  have ended : docLine indent = fun line => bodyLine indent line ++ ['\n'] := funext (docLine_eq indent)
  unfold docChars content
  rcases Text.lines (escapeCommentEnd (Text.trim text)) with - | ⟨line, - | ⟨next, others⟩⟩
  · rfl
  · simp [docLines, Text.joined]
  · simp [docLines, Text.joined, ended, List.flatMap_map]

theorem content_eq_nil_iff : content text = [] ↔ ∀ c ∈ text, Text.isBlank c := by
  have kept : escapeCommentEnd (Text.trim text) = [] ↔ Text.trim text = [] := by
    rw [← List.head?_eq_none_iff, head?_escapeCommentEnd, List.head?_eq_none_iff]
  rw [content, Text.lines_eq_nil_iff, kept, Text.trim_eq_nil_iff]

section

variable {spaces : Nat}

theorem settled_bodyLine (plain : '\n' ∉ line) :
    '\n' ∉ bodyLine (List.replicate spaces ' ') line ∧ Text.Bare (bodyLine (List.replicate spaces ' ') line) := by
  unfold bodyLine
  split
  · exact ⟨by simp, Text.bare_append (List.cons_ne_nil _ _) (Text.bare_concat (by decide) [' ']) _⟩
  · rename_i visible
    refine ⟨?_, Text.bare_append visible (Text.bare_trimEnd line) _⟩
    have kept : '\n' ∉ Text.trimEnd line := mt ((Text.trimEnd_isPrefix line).subset ·) plain
    simp [kept]

theorem unclosed_bodyLine (unclosed : Unclosed line) : Unclosed (bodyLine (List.replicate spaces ' ') line) := by
  have star : Unclosed ['*'] := List.isChain_singleton _
  unfold bodyLine
  split
  · exact unclosed_spaces_append (star.cons (by decide))
  · have kept : Unclosed (Text.trimEnd line) := unclosed.part (Text.trimEnd_isPrefix line).isInfix
    rw [List.append_assoc]
    exact unclosed_spaces_append ((star.append (by decide) (kept.cons (by decide))).cons (by decide))

theorem settled_docLines (plain : ∀ line ∈ lines, '\n' ∉ line) :
    Text.Settled (docLines (List.replicate spaces ' ') lines) := by
  rcases lines with - | ⟨line, - | ⟨next, others⟩⟩
  · exact nofun
  · refine List.forall_mem_singleton.mpr ⟨?_, bare_closing _⟩
    simp [plain line List.mem_cons_self]
  · have bare : Text.Bare (List.replicate spaces ' ' ++ ['/', '*', '*']) :=
      Text.bare_append (List.cons_ne_nil _ _) (Text.bare_concat (by decide) ['/', '*']) _
    refine List.forall_mem_cons.mpr ⟨⟨by simp, bare⟩, ?_⟩
    refine List.forall_mem_append.mpr ⟨List.forall_mem_map.mpr fun own member => settled_bodyLine (plain own member), ?_⟩
    exact List.forall_mem_singleton.mpr ⟨by simp, bare_closing _⟩

/-- The lines of a comment end it once, and with the last of them. -/
theorem closing_docLines (some : lines ≠ []) (each : ∀ line ∈ lines, Unclosed line) :
    Closing (docLines (List.replicate spaces ' ') lines) := by
  have star : Unclosed ['*'] := List.isChain_singleton _
  have stars : Unclosed ['*', '*'] := by simp [Unclosed]
  rcases lines with - | ⟨line, - | ⟨next, others⟩⟩
  · exact absurd rfl some
  · refine ⟨[], _, rfl, nofun, ?_⟩
    have inner : Unclosed (line ++ [' ', '*']) := (each line List.mem_cons_self).append (by decide) (star.cons (by decide))
    have whole : Unclosed (List.replicate spaces ' ' ++ _) := unclosed_spaces_append
      ((stars.append (by decide) (inner.cons (c := ' ') (by decide))).cons (c := '/') (by decide))
    simpa only [List.append_assoc, List.cons_append, List.nil_append] using whole
  · refine ⟨(List.replicate spaces ' ' ++ ['/', '*', '*']) :: (line :: next :: others).map (bodyLine _), _, rfl,
      List.forall_mem_cons.mpr ⟨?_, List.forall_mem_map.mpr fun own member => unclosed_bodyLine (each own member)⟩, ?_⟩
    · exact unclosed_spaces_append (stars.cons (by decide))
    · rw [List.append_assoc]
      exact unclosed_spaces_append (star.cons (by decide))

/-- A comment opens behind its indentation, and ends with its end. -/
theorem exists_body (some : lines ≠ []) (indent : List Char) :
    ∃ body, Text.joined (docLines indent lines) = indent ++ ['/', '*', '*'] ++ body ++ ['*', '/', '\n'] := by
  rcases lines with - | ⟨line, - | ⟨next, others⟩⟩
  · exact absurd rfl some
  · exact ⟨' ' :: line ++ [' '], by simp [docLines, Text.joined]⟩
  · refine ⟨'\n' :: Text.joined ((line :: next :: others).map (bodyLine indent)) ++ indent ++ [' '], ?_⟩
    simp [docLines, Text.joined]

end

/-- A description cannot leave its comment. A comment is empty exactly for a blank description. Any other is the indentation,
the start of a comment, a body and the end of a comment, whose two characters come together nowhere else; and in every
layout of it they come together once as well, at the end of the last line. -/
theorem docComment_closes (text : String) (spaces : Nat) :
    let indent := String.ofList (List.replicate spaces ' ')
    let comment := docComment text indent
    (comment = "" ↔ ∀ c ∈ text.toList, Text.isBlank c) ∧
    (comment ≠ "" → (∃ body, comment = indent ++ "/**" ++ body ++ "*/\n") ∧ ClosesOnce comment.toList ∧
      ∀ style : FormatStyle, ClosesOnce (style.format comment).toList ∧
        ∃ front last, Text.lines (style.format comment).toList = front ++ [last ++ ['*', '/']]) := by
  intro indent comment
  have letters : comment.toList = Text.joined (docLines (List.replicate spaces ' ') (content text.toList)) := by
    rw [← docChars_eq, ← String.toList_ofList (l := List.replicate spaces ' ')]
    exact String.toList_ofList
  have nothing : comment = "" ↔ content text.toList = [] := by
    rw [← String.toList_eq_nil_iff, letters, FormatStyle.joined_eq_nil_iff]
    rcases content text.toList with - | ⟨line, - | ⟨next, others⟩⟩ <;> simp [docLines]
  refine ⟨nothing.trans content_eq_nil_iff, fun some => ?_⟩
  have lines : content text.toList ≠ [] := mt nothing.mpr some
  have closing : Closing (docLines (List.replicate spaces ' ') (content text.toList)) :=
    closing_docLines lines fun line member => (unclosed_escapeCommentEnd _).part (Text.infix_of_mem_lines member)
  have settled : Text.Settled (docLines (List.replicate spaces ' ') (content text.toList)) :=
    settled_docLines fun line member => Text.plain_of_mem_lines member
  refine ⟨?_, letters ▸ closing.closesOnce, fun style => ?_⟩
  · obtain ⟨body, whole⟩ := exists_body lines (List.replicate spaces ' ')
    refine ⟨String.ofList body, String.toList_inj.mp ?_⟩
    rw [letters, whole]
    simp [indent]
  · have laid : (style.format comment).toList = Text.joined ((docLines (List.replicate spaces ' ') (content text.toList)).map
        style.line) := by
      rw [FormatStyle.toList_format, letters, formatChars_joined settled closing]
    obtain ⟨front, last, parts, -⟩ := closing.relaid style
    refine ⟨laid ▸ (closing.relaid style).closesOnce, front, last, ?_⟩
    have kept : Text.Settled (_ : List (List Char)) := style.settled_relines comment.toList
    rw [FormatStyle.relines, letters, Text.lines_joined settled] at kept
    rw [laid, Text.lines_joined kept, parts]

/-- A description that ends comments in several ways, in a style with wide indentation. -/
theorem docComment_closes_starred :
    let comment := docComment "**/ a*\r\n/ */*/ \n" "  "
    comment = "  /**\n   * **\\/ a*\n   * / *\\/*\\/\n   */\n" ∧ comment ≠ "" ∧ ClosesOnce comment.toList ∧
      FormatStyle.format { indentWidth := 4 } comment = "    /**\n     * **\\/ a*\n     * / *\\/*\\/\n     */\n" ∧
      ClosesOnce (FormatStyle.format { indentWidth := 4 } comment).toList := by
  intro comment
  have written : comment = "  /**\n   * **\\/ a*\n   * / *\\/*\\/\n   */\n" := by decide +kernel
  have some : comment ≠ "" := written ▸ by decide
  obtain ⟨-, closes⟩ := docComment_closes "**/ a*\r\n/ */*/ \n" 2
  obtain ⟨-, once, laid⟩ := closes some
  exact ⟨written, some, once, by decide +kernel, (laid _).1⟩

end TsText

end Schemata
