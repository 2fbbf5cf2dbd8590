import Mathlib.Data.List.Forall2
import Schemata.Proofs.Text.Cut
import Schemata.Proofs.Text.Lines
import Schemata.TypeScript.Layout

namespace Schemata

namespace FormatStyle

/-- A line and what becomes of it. Of a blank line nothing is left; any other line keeps its content, which starts behind
the leading spaces and ends in a visible character. -/
inductive Relaid (style : FormatStyle) : List Char → List Char → Prop
  | blank {line : List Char} (each : ∀ c ∈ line, Text.isBlank c) : Relaid style line []
  | content (spaces : Nat) {content tail : List Char} (visible : content ≠ []) (first : content.head? ≠ some ' ')
      (bare : Text.Bare content) (trailing : ∀ c ∈ tail, Text.isBlank c) :
      Relaid style (List.replicate spaces ' ' ++ content ++ tail)
        (List.replicate (spaces / 2 * style.indentWidth + spaces % 2) ' ' ++ content)

variable {style : FormatStyle} {before after source : List Char} {lines : List (List Char)}

theorem isBlank_of_mem_spaces {spaces : Nat} : ∀ c ∈ List.replicate spaces ' ', Text.isBlank c := by
  intro c member
  rw [List.eq_of_mem_replicate member]
  decide

/-- The leading spaces of a line are counted, and taken off. -/
theorem leading_spaces {spaces : Nat} {rest : List Char} (first : rest.head? ≠ some ' ') :
    ((List.replicate spaces ' ' ++ rest).takeWhile (· == ' ')).length = spaces ∧
      (List.replicate spaces ' ' ++ rest).dropWhile (· == ' ') = rest := by
  have all : ∀ c ∈ List.replicate spaces ' ', (c == ' ') = true := by
    intro c member
    rw [List.eq_of_mem_replicate member]
    rfl
  have stop : rest.takeWhile (· == ' ') = [] ∧ rest.dropWhile (· == ' ') = rest := by
    cases rest with
    | nil => exact ⟨rfl, rfl⟩
    | cons c rest =>
      have other : ¬ (c == ' ') = true := fun same => first (congrArg some (beq_iff_eq.mp same))
      exact ⟨List.takeWhile_cons_of_neg other, List.dropWhile_cons_of_neg other⟩
  rw [List.takeWhile_append_of_pos all, List.dropWhile_append_of_pos all, stop.1, stop.2, List.append_nil,
    List.length_replicate]
  exact ⟨rfl, rfl⟩

/-- Every line is spaces and then something that does not start with a space. -/
theorem exists_leading (text : List Char) :
    ∃ spaces rest, text = List.replicate spaces ' ' ++ rest ∧ rest.head? ≠ some ' ' := by
  have front : text.takeWhile (· == ' ') = List.replicate (text.takeWhile (· == ' ')).length ' ' :=
    List.eq_replicate_of_mem fun c member => by simpa using List.mem_takeWhile_imp member
  refine ⟨(text.takeWhile (· == ' ')).length, text.dropWhile (· == ' '), ?_, fun space => ?_⟩
  · rw [← front, List.takeWhile_append_dropWhile]
  · have other := List.head?_dropWhile_not (· == ' ') text
    rw [space] at other
    exact absurd other (by decide)

/-- What becomes of a line is determined. -/
theorem Relaid.line_eq (relaid : style.Relaid before after) : style.line before = after := by
  unfold line
  cases relaid with
  | blank each =>
    have nothing : Text.trimEnd (before.dropWhile (· == ' ')) = [] :=
      Text.dropEndWhile_eq_nil_iff.mpr fun c member => each c ((List.dropWhile_suffix _).subset member)
    simp only [nothing]
  | @content spaces content tail visible first bare trailing =>
    have head : (content ++ tail).head? ≠ some ' ' := by
      rwa [List.head?_append_of_ne_nil _ visible]
    have kept : Text.trimEnd (content ++ tail) = content :=
      (Text.dropEndWhile_append trailing).trans (Text.trimEnd_of_bare bare)
    rw [List.append_assoc]
    simp only [(leading_spaces head).1, (leading_spaces head).2, kept]

theorem relaid_line (text : List Char) : style.Relaid text (style.line text) := by
  obtain ⟨spaces, rest, rfl, first⟩ := exists_leading text
  obtain ⟨tail, whole, trailing⟩ := Text.exists_dropEndWhile Text.isBlank rest
  have relaid : ∃ after, style.Relaid (List.replicate spaces ' ' ++ rest) after := by
    by_cases visible : Text.trimEnd rest = []
    · refine ⟨[], .blank (List.forall_mem_append.mpr ⟨isBlank_of_mem_spaces, ?_⟩)⟩
      exact Text.dropEndWhile_eq_nil_iff.mp visible
    · rw [← Text.trimEnd] at whole
      have head : (Text.trimEnd rest).head? ≠ some ' ' := by
        rwa [whole, List.head?_append_of_ne_nil _ visible] at first
      rw [whole, ← List.append_assoc]
      exact ⟨_, .content spaces visible head (Text.bare_trimEnd rest) trailing⟩
  obtain ⟨after, relaid⟩ := relaid
  rwa [relaid.line_eq]

theorem Relaid.bare (relaid : style.Relaid before after) : Text.Bare after := by
  cases relaid with
  | blank each => exact nofun
  | content spaces visible first bare trailing => exact Text.bare_append visible bare _

theorem Relaid.plain (relaid : style.Relaid before after) (plain : '\n' ∉ before) : '\n' ∉ after := by
  cases relaid with
  | blank each => exact List.not_mem_nil
  | content spaces visible first bare trailing =>
    intro inside
    rcases List.mem_append.mp inside with leading | inner
    · exact absurd (List.eq_of_mem_replicate leading) (by decide)
    · exact plain (List.mem_append_left _ (List.mem_append_right _ inner))

/-- Nothing is left of a line exactly when the line is blank. -/
theorem Relaid.eq_nil_iff (relaid : style.Relaid before after) : after = [] ↔ ∀ c ∈ before, Text.isBlank c := by
  cases relaid with
  | blank each => exact iff_of_true rfl each
  | @content spaces content tail visible first bare trailing =>
    refine iff_of_false (fun none => visible (List.append_eq_nil_iff.mp none).2) fun each => ?_
    have last := List.getLast_mem visible
    have blank := each _ (List.mem_append_left _ (List.mem_append_right _ last))
    exact Bool.false_ne_true ((bare _ (List.getLast?_eq_some_getLast visible)).symm.trans blank)

/-- In a style of two spaces a line that has its layout keeps it. -/
theorem Relaid.line_self (narrow : style.indentWidth = 2) (relaid : style.Relaid before after) :
    style.line after = after := by
  cases relaid with
  | blank each => exact Relaid.line_eq (.blank nofun)
  | @content spaces content tail visible first bare trailing =>
    have width : spaces / 2 * style.indentWidth + spaces % 2 = spaces := by
      rw [narrow]
      omega
    have again : style.Relaid (List.replicate spaces ' ' ++ content ++ [])
        (List.replicate (spaces / 2 * style.indentWidth + spaces % 2) ' ' ++ content) :=
      .content spaces visible first bare nofun
    rw [width, List.append_nil] at again
    rw [width]
    exact again.line_eq

/-- The lines up to the last one that is not empty. -/
def upToLast (lines : List (List Char)) : List (List Char) := lines.rdropWhile List.isEmpty

theorem upToLast_upToLast (lines : List (List Char)) : upToLast (upToLast lines) = upToLast lines :=
  List.rdropWhile_idempotent List.isEmpty lines

theorem upToLast_cases (lines : List (List Char)) :
    upToLast lines = [] ∨ ∃ front last, upToLast lines = front ++ [last] ∧ last ≠ [] := by
  rcases List.eq_nil_or_concat' (upToLast lines) with none | ⟨front, last, whole⟩
  · exact Or.inl none
  · refine Or.inr ⟨front, last, whole, ?_⟩
    have same := upToLast_upToLast lines
    rw [whole, upToLast, List.rdropWhile_eq_self_iff] at same
    simpa using same (by simp)

theorem exists_upToLast (lines : List (List Char)) : ∃ empty, lines = upToLast lines ++ List.replicate empty [] := by
  induction lines using List.reverseRecOn with
  | nil => exact ⟨0, rfl⟩
  | append_singleton lines line ih =>
    rw [upToLast, List.rdropWhile_concat]
    split
    · rename_i nothing
      obtain ⟨empty, whole⟩ := ih
      refine ⟨empty + 1, ?_⟩
      rw [List.replicate_succ', ← List.append_assoc, ← upToLast, ← whole, List.isEmpty_iff.mp nothing]
    · exact ⟨0, (List.append_nil _).symm⟩

theorem upToLast_subset (lines : List (List Char)) : upToLast lines ⊆ lines :=
  List.IsPrefix.subset <| List.rdropWhile_prefix List.isEmpty lines

theorem settled_upToLast (settled : Text.Settled lines) : Text.Settled (upToLast lines) :=
  fun line member => settled line (upToLast_subset lines member)

/-- Without the line feeds at its end a text goes up to its last line that is not empty. -/
theorem body_joined (settled : Text.Settled lines) : body (Text.joined lines) = (Text.joined (upToLast lines)).dropLast := by
  induction lines using List.reverseRecOn with
  | nil => rfl
  | append_singleton lines line ih =>
    rw [Text.Settled, List.forall_mem_append] at settled
    obtain ⟨front, plain, -⟩ := And.imp_right (· line List.mem_cons_self) settled
    rw [upToLast, List.rdropWhile_concat, Text.joined_concat, body, Text.dropEndWhile_append (by simp)]
    split
    · rename_i nothing
      rw [List.isEmpty_iff.mp nothing, List.append_nil]
      exact ih front
    · rename_i visible
      rw [Text.joined_concat, List.dropLast_concat]
      refine Text.dropEndWhile_eq_self_iff.mpr fun c last => beq_false_of_ne ?_
      rintro rfl
      rw [List.getLast?_append_of_ne_nil _ (by simpa using visible)] at last
      exact plain (List.mem_of_getLast? last)

/-- The lines of a source, each with its layout. -/
def relines (style : FormatStyle) (source : List Char) : List (List Char) := (Text.lines source).map style.line

theorem relines_forall₂ (source : List Char) : List.Forall₂ style.Relaid (Text.lines source) (style.relines source) :=
  List.forall₂_map_right_iff.mpr (List.forall₂_same.mpr fun line _ => relaid_line line)

theorem settled_relines (source : List Char) : Text.Settled (style.relines source) := by
  intro line member
  obtain ⟨own, inside, rfl⟩ := List.mem_map.mp member
  exact ⟨(relaid_line own).plain (Text.plain_of_mem_lines inside), (relaid_line own).bare⟩

/-- The layout joins the lines: up to the last one that is not empty, or all of them when the source ends in a line feed that
is to be kept; and the last line feed stays away where the source has none and none is asked for. -/
theorem formatChars_eq (style : FormatStyle) (source : List Char) : style.formatChars source =
    if style.trailingNewline then Text.joined (upToLast (style.relines source))
    else if source.getLast? = some '\n' then Text.joined (style.relines source)
    else (Text.joined (upToLast (style.relines source))).dropLast := by
  have whole : ((Text.lines source).flatMap fun text => style.line text ++ ['\n']) = Text.joined (style.relines source) := by
    rw [Text.joined, relines, List.flatMap_map]
  rw [formatChars, settleEnd, whole, body_joined (settled_relines source)]
  refine if_congr Iff.rfl ?_ rfl
  rcases upToLast_cases (style.relines source) with none | ⟨front, last, parts, visible⟩
  · rw [none]
    rfl
  · rw [parts, Text.joined_concat, List.dropLast_concat, if_neg (by simp [visible])]

/-- What can be read off a text: its lines, of which none ends in a blank, not even in one that belongs to a line end. -/
def Reads (text : List Char) (lines : List (List Char)) : Prop :=
  Text.lines text = lines ∧ ∀ piece ∈ Text.pieces (· == '\n') text, Text.Bare piece

theorem reads_joined (settled : Text.Settled lines) : Reads (Text.joined lines) lines := by
  refine ⟨Text.lines_joined settled, fun piece member => ?_⟩
  have whole := Text.pieces_joined_append settled []
  rw [List.append_nil] at whole
  rw [whole, List.mem_append] at member
  rcases member with inside | last
  · exact (settled piece inside).2
  · rw [List.mem_singleton.mp last]
    exact nofun

theorem reads_unended (settled : Text.Settled lines) : Reads (Text.joined (upToLast lines)).dropLast (upToLast lines) := by
  have kept := settled_upToLast settled
  rcases upToLast_cases lines with none | ⟨front, last, parts, visible⟩
  · rw [none]
    exact ⟨rfl, fun piece member => List.mem_singleton.mp member ▸ nofun⟩
  · rw [parts, Text.Settled, List.forall_mem_append] at kept
    obtain ⟨before, plain, bare⟩ := And.imp_right (· last List.mem_cons_self) kept
    rw [parts, Text.joined_concat, List.dropLast_concat, Reads, Text.lines_joined_append before,
      Text.lines_of_plain visible plain, Text.pieces_joined_append before]
    refine ⟨rfl, List.forall_mem_append.mpr ⟨fun piece inside => (before piece inside).2, ?_⟩⟩
    rw [Text.pieces_of_plain (Text.beq_of_plain plain)]
    exact List.forall_mem_singleton.mpr bare

/-- The lines of the layout are those of the source, each with its layout, but for empty lines at the end. -/
theorem reads_formatChars (style : FormatStyle) (source : List Char) : ∃ lines empty,
    Reads (style.formatChars source) lines ∧ style.relines source = lines ++ List.replicate empty [] := by
  have settled := style.settled_relines source
  obtain ⟨empty, whole⟩ := exists_upToLast (style.relines source)
  rw [formatChars_eq]
  split_ifs
  · exact ⟨_, empty, reads_joined (settled_upToLast settled), whole⟩
  · exact ⟨_, 0, reads_joined settled, (List.append_nil _).symm⟩
  · exact ⟨_, empty, reads_unended settled, whole⟩

/-- No line is left exactly when the source is blank. -/
theorem upToLast_relines_eq_nil_iff (source : List Char) :
    upToLast (style.relines source) = [] ↔ ∀ c ∈ source, Text.isBlank c := by
  rw [← Text.forall_mem_lines_iff (by decide) (by decide), upToLast, List.rdropWhile_eq_nil_iff, relines, List.forall_mem_map]
  exact forall₂_congr fun line _ => List.isEmpty_iff.trans (relaid_line line).eq_nil_iff

theorem joined_eq_nil_iff : Text.joined lines = [] ↔ lines = [] := by
  cases lines <;> simp [Text.joined]

theorem getLast?_unended (lines : List (List Char)) (settled : Text.Settled lines) :
    (Text.joined (upToLast lines)).dropLast.getLast? ≠ some '\n' := by
  have kept := settled_upToLast settled
  rcases upToLast_cases lines with none | ⟨front, last, parts, visible⟩
  · rw [none]
    exact nofun
  · rw [parts, Text.joined_concat, List.dropLast_concat, List.getLast?_append_of_ne_nil _ visible]
    exact fun ended => (kept last (parts ▸ List.mem_append_right _ List.mem_cons_self)).1 (List.mem_of_getLast? ended)

/-- In a style of two spaces the layout of a text that has it already is the text. -/
theorem formatChars_formatChars (narrow : style.indentWidth = 2) (source : List Char) :
    style.formatChars (style.formatChars source) = style.formatChars source := by
  have settled := style.settled_relines source
  have again {text : List Char} {lines : List (List Char)} (reads : Reads text lines)
      (inside : lines ⊆ style.relines source) : style.relines text = lines := by
    rw [relines, reads.1]
    refine (List.map_congr_left fun line member => ?_).trans (List.map_id lines)
    obtain ⟨own, -, rfl⟩ := List.mem_map.mp (inside member)
    exact (relaid_line own).line_self narrow
  rw [formatChars_eq style source]
  split_ifs with ends feed
  · rw [formatChars_eq, if_pos ends, again (reads_joined (settled_upToLast settled)) (upToLast_subset _), upToLast_upToLast]
  · have some : style.relines source ≠ [] := by
      intro none
      rw [relines, List.map_eq_nil_iff, Text.lines_eq_nil_iff] at none
      rw [none] at feed
      cases feed
    obtain ⟨front, last, parts⟩ := (List.eq_nil_or_concat' (style.relines source)).resolve_left some
    have ended : (Text.joined (style.relines source)).getLast? = Option.some '\n' := by
      rw [parts, Text.joined_concat, List.getLast?_concat]
    rw [formatChars_eq, if_neg ends, if_pos ended, again (reads_joined settled) (List.Subset.refl _)]
  · rw [formatChars_eq, if_neg ends, if_neg (getLast?_unended _ settled), again (reads_unended settled) (upToLast_subset _),
      upToLast_upToLast]

theorem toList_format (style : FormatStyle) (source : String) :
    (style.format source).toList = style.formatChars source.toList := String.toList_ofList

/-- The layout moves blanks alone. Its lines are those of the source, each with its content behind the widened indentation,
but for blank lines at the end; no line ends in a blank. Where a final line feed is asked for, nothing is written exactly for a
blank source, and anything else ends in one line feed; where none is asked for, there is one at most if the source has one. In
a style of two spaces the layout of what was laid out is the same. -/
theorem format_conserves (style : FormatStyle) (source : String) :
    let written := style.format source
    (∃ empty, List.Forall₂ style.Relaid (Text.lines source.toList)
      (Text.lines written.toList ++ List.replicate empty [])) ∧
    (∀ piece ∈ Text.pieces (· == '\n') written.toList, Text.Bare piece) ∧
    (style.trailingNewline = true → (written = "" ↔ ∀ c ∈ source.toList, Text.isBlank c) ∧
      (written ≠ "" → ∃ front last, written.toList = front ++ [last, '\n'] ∧ last ≠ '\n')) ∧
    (style.trailingNewline = false → written.toList.getLast? = some '\n' → source.toList.getLast? = some '\n') ∧
    (style.indentWidth = 2 → style.format written = written) := by
  intro written
  have letters : written.toList = style.formatChars source.toList := style.toList_format source
  have settled := style.settled_relines source.toList
  obtain ⟨lines, empty, ⟨read, bare⟩, whole⟩ := style.reads_formatChars source.toList
  refine ⟨⟨empty, ?_⟩, letters ▸ bare, fun ends => ?_, fun without ended => ?_, fun narrow => ?_⟩
  · rw [letters, read, ← whole]
    exact relines_forall₂ source.toList
  · rw [formatChars_eq, if_pos ends] at letters
    have nothing : written = "" ↔ upToLast (style.relines source.toList) = [] := by
      rw [← String.toList_eq_nil_iff, letters, joined_eq_nil_iff]
    refine ⟨nothing.trans (upToLast_relines_eq_nil_iff source.toList), fun some => ?_⟩
    obtain ⟨front, last, parts, visible⟩ := (upToLast_cases _).resolve_left (mt nothing.mpr some)
    obtain ⟨start, c, rfl⟩ := (List.eq_nil_or_concat' last).resolve_left visible
    refine ⟨Text.joined front ++ start, c, ?_, ?_⟩
    · rw [letters, parts, Text.joined_concat]
      simp only [List.append_assoc, List.cons_append, List.nil_append]
    · rintro rfl
      have plain := (settled_upToLast settled (start ++ ['\n']) (parts ▸ List.mem_append_right _ List.mem_cons_self)).1
      exact plain (List.mem_append_right _ List.mem_cons_self)
  · by_contra unended
    rw [letters, formatChars_eq, if_neg (Bool.eq_false_iff.mp without), if_neg unended] at ended
    exact getLast?_unended _ settled ended
  · rw [← String.toList_inj, toList_format, letters, formatChars_formatChars narrow]

/-- A line that ended in a carriage return, one with an odd indentation, and blank lines at the end. -/
theorem format_conserves_comment :
    let source := "a (\r\n   * b \n \t\n)\n\n"
    let kept : FormatStyle := { trailingNewline := false }
    FormatStyle.format {} source = "a (\n   * b\n\n)\n" ∧ kept.format source = "a (\n   * b\n\n)\n\n" ∧
      (∃ front last, (FormatStyle.format {} source).toList = front ++ [last, '\n'] ∧ last ≠ '\n') ∧
      source.toList.getLast? = some '\n' ∧ kept.format (kept.format source) = kept.format source := by
  intro source kept
  have closed : FormatStyle.format {} source = "a (\n   * b\n\n)\n" := by decide +kernel
  have left : kept.format source = "a (\n   * b\n\n)\n\n" := by decide +kernel
  obtain ⟨-, -, ends, -, -⟩ := format_conserves {} source
  obtain ⟨-, -, -, unended, again⟩ := format_conserves kept source
  exact ⟨closed, left, (ends rfl).2 (closed ▸ by decide), unended rfl (left ▸ by decide +kernel), again rfl⟩

end FormatStyle

end Schemata
