import Schemata.Proofs.Json.Members
import Schemata.Proofs.Text.Cut
import Schemata.Webhook.Definition

namespace Schemata

namespace Webhook

/-- The media type is one of JSON by the end of its name. -/
def EndsInJson (name : String) : Prop := ∃ start, name = start ++ "+json"

/-- The media type whose schema counts. -/
inductive Preferred (content : Table Json) : Json → Prop
  | json {media : Json} (named : content.lookup "application/json" = some media) : Preferred content media
  | suffix {before after : Table Json} {name : String} {media : Json}
      (absent : content.lookup "application/json" = none) (ends : EndsInJson name)
      (parts : content = before ++ (name, media) :: after) (earlier : ∀ entry ∈ before, ¬ EndsInJson entry.1) :
      Preferred content media
  | first {name : String} {media : Json} {after : Table Json} (absent : content.lookup "application/json" = none)
      (none : ∀ entry ∈ content, ¬ EndsInJson entry.1) (parts : content = (name, media) :: after) :
      Preferred content media

/-- The payload says what it holds by this schema. -/
inductive Carries : Json → Schema → Prop
  | bool (value : Bool) : Carries (.bool value) (.bool value)
  | content {fields content : Table Json} {media value : Json} (named : fields.lookup "content" = some (.object content))
      (preferred : Preferred content media) (given : media.get? "schema" = some value) :
      Carries (.object fields) (.ofJson value)
  | bare {fields : Table Json} {entry : String × Json} (without : fields.lookup "content" = none)
      (member : entry ∈ fields) (telling : isMetadata entry = false) : Carries (.object fields) (.ofJson (.object fields))

variable {content fields : Table Json} {media payload : Json} {schema : Schema}

theorem startsWith_reverse_iff {name : String} :
    Text.startsWith (String.ofList name.toList.reverse) "nosj+" ↔ EndsInJson name := by
  have turned : "+json".toList.reverse = "nosj+".toList := by decide
  simp only [Text.startsWith_iff, EndsInJson, ← String.toList_inj, String.toList_append, String.toList_ofList]
  constructor
  · rintro ⟨rest, same⟩
    refine ⟨String.ofList rest.toList.reverse, ?_⟩
    rw [String.toList_ofList, ← List.reverse_inj, same, List.reverse_append, List.reverse_reverse, turned]
  · rintro ⟨start, same⟩
    refine ⟨String.ofList start.toList.reverse, ?_⟩
    simp only [String.toList_ofList, same, List.reverse_append, turned]

theorem preferredMedia_eq_some_iff : preferredMedia content = some media ↔ Preferred content media := by
  have unfolded : preferredMedia content = (content.lookup "application/json").or (((content.find? fun entry =>
      Text.startsWith (String.ofList entry.1.toList.reverse) "nosj+").or content.head?).map (·.2)) := rfl
  simp only [unfolded, Option.or_eq_some_iff, Option.map_eq_some_iff, List.find?_eq_some_iff_append, List.find?_eq_none,
    List.head?_eq_some_iff, Bool.not_eq_true', Bool.eq_false_iff, ne_eq, startsWith_reverse_iff]
  constructor
  · rintro (named | ⟨absent, ⟨name, media⟩, ⟨ends, before, after, parts, earlier⟩ | ⟨none, after, parts⟩, rfl⟩)
    · exact .json named
    · exact .suffix absent ends parts earlier
    · exact .first absent none parts
  · rintro (named | ⟨absent, ends, parts, earlier⟩ | ⟨absent, none, parts⟩)
    · exact Or.inl named
    · exact Or.inr ⟨absent, _, Or.inl ⟨ends, _, _, parts, earlier⟩, rfl⟩
    · exact Or.inr ⟨absent, _, Or.inr ⟨none, _, parts⟩, rfl⟩

theorem Preferred.mem (preferred : Preferred content media) : ∃ name, (name, media) ∈ content := by
  cases preferred with
  | json named => exact ⟨_, Table.mem_of_lookup named⟩
  | suffix absent ends parts earlier => exact ⟨_, parts ▸ List.mem_append_right _ List.mem_cons_self⟩
  | first absent none parts => exact ⟨_, parts ▸ List.mem_cons_self⟩

theorem mediaSchema?_eq_some_iff {value : Json} : mediaSchema? value = some schema ↔
    ∃ content media given, value = .object content ∧ Preferred content media ∧ media.get? "schema" = some given ∧
      schema = .ofJson given := by
  simp only [mediaSchema?, Option.bind_eq_bind, Option.bind_eq_some_iff, Json.object?_eq_some_iff,
    preferredMedia_eq_some_iff, Option.pure_def, Option.some.injEq]
  constructor
  · rintro ⟨content, same, media, preferred, given, found, read⟩
    exact ⟨content, media, given, same, preferred, found, read.symm⟩
  · rintro ⟨content, media, given, same, preferred, found, read⟩
    exact ⟨content, same, media, preferred, given, found, read.symm⟩

/-- A payload has the schema that it carries, and no other. -/
theorem payloadSchema?_eq_some_iff : payloadSchema? payload = some schema ↔ Carries payload schema := by
  constructor
  · intro given
    unfold payloadSchema? at given
    split at given
    · obtain rfl := Option.some.inj given
      exact .bool _
    · rename_i fields
      split at given
      · rename_i named
        obtain ⟨content, media, value, rfl, preferred, found, rfl⟩ := mediaSchema?_eq_some_iff.mp given
        exact .content named preferred found
      · rename_i without
        split at given
        · cases given
        · rename_i more
          obtain rfl := Option.some.inj given
          rw [Bool.not_eq_true, List.all_eq_false] at more
          obtain ⟨entry, member, telling⟩ := more
          exact .bare without member (Bool.eq_false_iff.mpr telling)
    · cases given
  · rintro (value | ⟨named, preferred, found⟩ | ⟨without, member, telling⟩)
    · rfl
    · rw [payloadSchema?, named]
      exact mediaSchema?_eq_some_iff.mpr ⟨_, _, _, rfl, preferred, found, rfl⟩
    · have more : _ = false := List.all_eq_false.mpr ⟨_, member, Bool.eq_false_iff.mp telling⟩
      simp only [payloadSchema?, without, more, Bool.false_eq_true, if_false]

end Webhook

end Schemata
