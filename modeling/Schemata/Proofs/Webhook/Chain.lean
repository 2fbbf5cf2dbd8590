import Schemata.Proofs.Json.Members
import Schemata.Proofs.Json.Pointer
import Schemata.Proofs.Naming
import Schemata.Proofs.Text.Cut
import Schemata.Webhook.Definition

namespace Schemata

namespace Webhook

/-- The payload is a reference to a shared one, and this is the pointer in it. -/
def PointsTo (payload : Json) (pointer : String) : Prop :=
  payload.get? "$ref" = some (.string ("#" ++ pointer)) ∧ ∃ start ∈ sharedStarts, ∃ rest, "#" ++ pointer = start ++ rest

/-- The payload is the first after any number of hops that leads to the last. -/
inductive Chain (document : Json) : Nat → Json → Json → Prop
  | here (payload : Json) : Chain document 0 payload payload
  | hop {hops : Nat} {payload next last : Json} {pointer : String} (points : PointsTo payload pointer)
      (resolved : document.pointer? pointer = some next) (further : Chain document hops next last) :
      Chain document (hops + 1) payload last

/-- The payload is a reference to a shared one that is not in the document. -/
def Dangles (document payload : Json) : Prop := ∃ pointer, PointsTo payload pointer ∧ document.pointer? pointer = none

/-- The payload is no reference to a shared one, and the chain gets to it in fewer hops than the limit. -/
def StandsFor (document payload found : Json) : Prop :=
  ∃ hops < maxHops, Chain document hops payload found ∧ ∀ pointer, ¬ PointsTo found pointer

variable {document payload next last found : Json} {pointer : String} {hops : Nat}

theorem PointsTo.unique {other : String} (points : PointsTo payload pointer) (again : PointsTo payload other) :
    pointer = other := by
  have same := Json.string.inj (Option.some.inj (points.1.symm.trans again.1))
  have letters := congrArg String.toList same
  rw [String.toList_append, String.toList_append, List.append_cancel_left_eq] at letters
  exact String.toList_inj.mp letters

/-- References to shared payloads all have a pointer behind their sign. -/
theorem pointer_of_sharedStart {start : String} (shared : start ∈ sharedStarts) (rest : String) :
    ∃ pointer, start ++ rest = "#" ++ pointer := by
  rcases List.mem_pair.mp shared with rfl | rfl
  · exact ⟨"/components/requestBodies/" ++ rest, by rw [← String.append_assoc]; rfl⟩
  · exact ⟨"/components/responses/" ++ rest, by rw [← String.append_assoc]; rfl⟩

theorem sharedReference?_eq_some_iff {reference : String} :
    sharedReference? payload = some reference ↔ ∃ pointer, reference = "#" ++ pointer ∧ PointsTo payload pointer := by
  have listed : sharedStarts.any (Text.startsWith reference) = true ↔
      ∃ start ∈ sharedStarts, ∃ rest, reference = start ++ rest := by
    rw [List.any_eq_true]
    simp only [Text.startsWith_iff]
  constructor
  · intro shared
    unfold sharedReference? at shared
    split at shared
    · rename_i text given
      split at shared
      · rename_i starts
        obtain rfl := Option.some.inj shared
        obtain ⟨value, named, string⟩ := Option.bind_eq_some_iff.mp given
        obtain rfl := Json.string?_eq_some_iff.mp string
        obtain ⟨start, member, rest, same⟩ := listed.mp starts
        obtain ⟨pointer, sign⟩ := pointer_of_sharedStart member rest
        obtain rfl := same.trans sign
        exact ⟨pointer, rfl, named, start, member, rest, same⟩
      · cases shared
    · cases shared
  · rintro ⟨pointer, rfl, named, starts⟩
    simp only [sharedReference?, named, Option.bind_some, Json.string?, listed.mpr starts, if_true]

theorem sharedReference?_of_pointsTo (points : PointsTo payload pointer) :
    sharedReference? payload = some ("#" ++ pointer) := sharedReference?_eq_some_iff.mpr ⟨pointer, rfl, points⟩

theorem sharedReference?_eq_none_iff : sharedReference? payload = none ↔ ∀ pointer, ¬ PointsTo payload pointer := by
  constructor
  · intro none pointer points
    cases none.symm.trans (sharedReference?_of_pointsTo points)
  · intro none
    refine Option.eq_none_iff_forall_not_mem.mpr fun reference shared => ?_
    obtain ⟨pointer, -, points⟩ := sharedReference?_eq_some_iff.mp shared
    exact none pointer points

/-- One round of following: a reference to a shared payload is replaced by what its pointer leads to. -/
theorem followShared_of_pointsTo (points : PointsTo payload pointer) (hops : Nat) :
    followShared document (hops + 1) payload = (document.pointer? pointer).bind (followShared document hops) := by
  simp only [followShared, sharedReference?_of_pointsTo points, Text.dropStart?_append, Option.bind_some]

theorem followShared_of_final (final : ∀ pointer, ¬ PointsTo payload pointer) (hops : Nat) :
    followShared document (hops + 1) payload = some payload := by
  simp only [followShared, sharedReference?_eq_none_iff.mpr final]

/-- From a reference, a chain goes on from what its pointer leads to. -/
theorem chain_succ_iff (points : PointsTo payload pointer) : Chain document (hops + 1) payload last ↔
    ∃ next, document.pointer? pointer = some next ∧ Chain document hops next last := by
  constructor
  · rintro (- | ⟨again, resolved, further⟩)
    obtain rfl := points.unique again
    exact ⟨_, resolved, further⟩
  · rintro ⟨next, resolved, further⟩
    exact .hop points resolved further

/-- Where there is no reference, the chain is at its end. -/
theorem chain_iff_of_final (final : ∀ pointer, ¬ PointsTo payload pointer) :
    Chain document hops payload last ↔ hops = 0 ∧ last = payload := by
  constructor
  · rintro (- | ⟨points, resolved, further⟩)
    · exact ⟨rfl, rfl⟩
    · exact absurd points (final _)
  · rintro ⟨rfl, rfl⟩
    exact .here _

/-- What is found is the end of a chain that is shorter than the limit. -/
theorem followShared_eq_some_iff {limit : Nat} : followShared document limit payload = some found ↔
    ∃ hops < limit, Chain document hops payload found ∧ ∀ pointer, ¬ PointsTo found pointer := by
  induction limit generalizing payload with
  | zero => simp [followShared]
  | succ limit ih =>
    by_cases shared : ∃ pointer, PointsTo payload pointer
    · obtain ⟨pointer, points⟩ := shared
      rw [followShared_of_pointsTo points, Option.bind_eq_some_iff]
      constructor
      · rintro ⟨next, resolved, followed⟩
        obtain ⟨hops, below, chain, final⟩ := ih.mp followed
        exact ⟨hops + 1, Nat.succ_lt_succ below, .hop points resolved chain, final⟩
      · rintro ⟨hops, below, chain, final⟩
        cases hops with
        | zero =>
          cases chain
          exact absurd points (final pointer)
        | succ hops =>
          obtain ⟨next, resolved, further⟩ := (chain_succ_iff points).mp chain
          exact ⟨next, resolved, ih.mpr ⟨hops, Nat.lt_of_succ_lt_succ below, further, final⟩⟩
    · have final := not_exists.mp shared
      simp only [followShared_of_final final, chain_iff_of_final final, Option.some.injEq]
      constructor
      · rintro rfl
        exact ⟨0, Nat.succ_pos limit, ⟨rfl, rfl⟩, final⟩
      · rintro ⟨hops, below, ⟨-, same⟩, -⟩
        exact same.symm

theorem resolvePayload_eq_some_iff : resolvePayload document payload = some found ↔ StandsFor document payload found :=
  followShared_eq_some_iff

theorem StandsFor.unique {other : Json} (stands : StandsFor document payload found)
    (again : StandsFor document payload other) : found = other :=
  Option.some.inj ((resolvePayload_eq_some_iff.mpr stands).symm.trans (resolvePayload_eq_some_iff.mpr again))

/-- Nothing is found where a reference dangles before the limit, or where the chain goes on up to it. -/
theorem followShared_eq_none_iff {limit : Nat} : followShared document limit payload = none ↔
    (∃ hops < limit, ∃ last, Chain document hops payload last ∧ Dangles document last) ∨
      ∃ last, Chain document limit payload last := by
  induction limit generalizing payload with
  | zero => exact iff_of_true rfl (Or.inr ⟨_, .here _⟩)
  | succ limit ih =>
    by_cases shared : ∃ pointer, PointsTo payload pointer
    · obtain ⟨pointer, points⟩ := shared
      rw [followShared_of_pointsTo points]
      constructor
      · intro nothing
        cases resolved : document.pointer? pointer with
        | none => exact Or.inl ⟨0, Nat.succ_pos limit, payload, .here payload, pointer, points, resolved⟩
        | some next =>
          rw [resolved, Option.bind_some] at nothing
          rcases ih.mp nothing with ⟨hops, below, last, chain, dangles⟩ | ⟨last, chain⟩
          · exact Or.inl ⟨hops + 1, Nat.succ_lt_succ below, last, .hop points resolved chain, dangles⟩
          · exact Or.inr ⟨last, .hop points resolved chain⟩
      · rintro (⟨hops, below, last, chain, dangles⟩ | ⟨last, chain⟩)
        · cases hops with
          | zero =>
            cases chain
            obtain ⟨other, again, nowhere⟩ := dangles
            rw [points.unique again, nowhere, Option.bind_none]
          | succ hops =>
            obtain ⟨next, resolved, further⟩ := (chain_succ_iff points).mp chain
            rw [resolved, Option.bind_some]
            exact ih.mpr (Or.inl ⟨hops, Nat.lt_of_succ_lt_succ below, last, further, dangles⟩)
        · obtain ⟨next, resolved, further⟩ := (chain_succ_iff points).mp chain
          rw [resolved, Option.bind_some]
          exact ih.mpr (Or.inr ⟨last, further⟩)
    · have final := not_exists.mp shared
      simp only [followShared_of_final final, chain_iff_of_final final]
      refine iff_of_false nofun ?_
      rintro (⟨hops, below, last, ⟨-, rfl⟩, pointer, points, -⟩ | ⟨last, impossible, -⟩)
      · exact final pointer points
      · cases impossible

theorem Chain.trans {more : Nat} (first : Chain document hops payload next) (second : Chain document more next last) :
    Chain document (hops + more) payload last := by
  induction first with
  | here => rwa [Nat.zero_add]
  | hop points resolved further ih =>
    rw [Nat.succ_add]
    exact .hop points resolved (ih second)

/-- A chain can be broken off after any number of its hops. -/
theorem Chain.exists_of_le {fewer : Nat} (chain : Chain document hops payload last) (short : fewer ≤ hops) :
    ∃ between, Chain document fewer payload between := by
  induction chain generalizing fewer with
  | here payload => exact ⟨payload, Nat.le_zero.mp short ▸ .here payload⟩
  | @hop hops payload next last pointer points resolved further ih =>
    cases fewer with
    | zero => exact ⟨payload, .here payload⟩
    | succ fewer =>
      obtain ⟨between, part⟩ := ih (Nat.le_of_succ_le_succ short)
      exact ⟨between, .hop points resolved part⟩

/-- A chain that comes back to a payload goes round as often as one likes. -/
theorem Chain.rounds {length : Nat} (round : Chain document length payload payload) (times : Nat) :
    Chain document (times * length) payload payload := by
  induction times with
  | zero =>
    rw [Nat.zero_mul]
    exact .here payload
  | succ times ih =>
    rw [Nat.succ_mul]
    exact ih.trans round

/-- What a chain leads to is the payload or a part of the document. -/
theorem Chain.keysDistinct (chain : Chain document hops payload last) (whole : document.KeysDistinct)
    (own : payload.KeysDistinct) : last.KeysDistinct := by
  induction chain with
  | here => exact own
  | hop points resolved further ih =>
    obtain ⟨path, -, inside⟩ := Option.bind_eq_some_iff.mp resolved
    exact ih (whole.resolve? inside)

/-- A payload stands for the end of its chain where that is reached in fewer hops than the limit, and for nothing else.
It stands for nothing where a reference before that dangles, where the chain is as long as the limit, or where it comes
back to one of its payloads. -/
theorem resolvePayload_chain (document payload : Json) :
    (∀ found, resolvePayload document payload = some found ↔ StandsFor document payload found) ∧
    (resolvePayload document payload = none ↔
      (∃ hops < maxHops, ∃ last, Chain document hops payload last ∧ Dangles document last) ∨
        ∃ last, Chain document maxHops payload last) ∧
    ∀ lead length back, Chain document lead payload back → Chain document (length + 1) back back →
      resolvePayload document payload = none := by
  refine ⟨fun found => resolvePayload_eq_some_iff, followShared_eq_none_iff, fun lead length back chain round => ?_⟩
  have long : Chain document (lead + maxHops * (length + 1)) payload back := chain.trans (round.rounds maxHops)
  have enough : maxHops ≤ lead + maxHops * (length + 1) :=
    Nat.le_add_left_of_le (Nat.le_mul_of_pos_right maxHops (Nat.succ_pos length))
  exact followShared_eq_none_iff.mpr (Or.inr (long.exists_of_le enough))

/-- A reference to a shared response, by its name. -/
theorem pointsTo_response (name : String) :
    let pointer := Pointer.text ["components", "responses", name]
    PointsTo (.object [("$ref", .string ("#" ++ pointer))]) pointer := by
  have components : Pointer.escape "components" = "components" := Pointer.escape_eq_self_iff.mpr (by decide)
  have responses : Pointer.escape "responses" = "responses" := Pointer.escape_eq_self_iff.mpr (by decide)
  refine ⟨by rw [Json.get?, List.lookup_cons_self], "#/components/responses/", by decide, Pointer.escape name,
    String.toList_inj.mp ?_⟩
  simp [Pointer.text, components, responses]

/-- The pointer to the shared response of that number. -/
def numbered (number : Nat) : String := Pointer.text ["components", "responses", toString number]

/-- A payload in a row of references, each to the next; after the last of them stands an empty payload. -/
def rowPayload (length number : Nat) : Json :=
  if number < length then .object [("$ref", .string ("#" ++ numbered number))] else .object []

/-- The document whose responses are what the references of a row lead to. -/
def rowDocument (length : Nat) : Json :=
  .object [("components", .object [("responses",
    .object ((List.range length).map fun number => (toString number, rowPayload length (number + 1))))])]

variable {length number : Nat}

theorem pointsTo_rowPayload (inside : number < length) : PointsTo (rowPayload length number) (numbered number) := by
  rw [rowPayload, if_pos inside]
  exact pointsTo_response (toString number)

theorem pointer_rowDocument (inside : number < length) :
    (rowDocument length).pointer? (numbered number) = some (rowPayload length (number + 1)) := by
  have distinct : Table.Distinct ((List.range length).map fun number =>
      (toString number, rowPayload length (number + 1))) := by
    have names : Function.Injective fun number : Nat => toString number := by
      simpa using NameAllocator.candidate_injective ""
    rw [Table.Distinct, Table.keys, List.map_map]
    exact List.Nodup.map names List.nodup_range
  have found := Table.lookup_of_mem distinct (List.mem_map.mpr ⟨number, List.mem_range.mpr inside, rfl⟩)
  rw [numbered, Json.pointer?_text]
  simpa [rowDocument, Json.resolve?, Json.member?] using found

/-- From each payload of a row there are as many hops to the end as there are references left. -/
theorem chain_row (short : hops ≤ length) :
    Chain (rowDocument length) hops (rowPayload length (length - hops)) (rowPayload length length) := by
  induction hops with
  | zero => exact .here _
  | succ hops ih =>
    have inside : length - (hops + 1) < length := by omega
    have next : length - (hops + 1) + 1 = length - hops := by omega
    exact .hop (pointsTo_rowPayload inside) (pointer_rowDocument inside) (next ▸ ih (Nat.le_of_succ_le short))

/-- A payload that the last hop would reach is not found: one hop fewer than the limit are made. -/
theorem resolvePayload_chain_limit :
    Chain (rowDocument maxHops) maxHops (rowPayload maxHops 0) (rowPayload maxHops maxHops) ∧
    (∀ pointer, ¬ PointsTo (rowPayload maxHops maxHops) pointer) ∧
    resolvePayload (rowDocument maxHops) (rowPayload maxHops 0) = none := by
  have chain := chain_row (Nat.le_refl maxHops)
  rw [Nat.sub_self] at chain
  have empty : rowPayload maxHops maxHops = .object [] := if_neg (Nat.lt_irrefl maxHops)
  refine ⟨chain, ?_, (resolvePayload_chain _ _).2.1.mpr (Or.inr ⟨_, chain⟩)⟩
  rw [empty]
  rintro pointer ⟨reference, -⟩
  cases reference

end Webhook

end Schemata
