import Mathlib.Data.List.Basic
import Schemata.Json.Pointer

namespace Schemata

namespace Pointer

theorem unescapeChars_escape (token : List Char) : unescapeChars (token.flatMap escapeChar) = token := by
  induction token with
  | nil => rfl
  | cons c rest ih =>
    rw [List.flatMap_cons, escapeChar]
    split
    · rename_i tilde
      simp only [List.cons_append, List.nil_append, unescapeChars, ih, tilde]
    · split
      · rename_i slash
        simp only [List.cons_append, List.nil_append, unescapeChars, ih, slash]
      · rename_i tilde slash
        rw [List.singleton_append, unescapeChars, ih]
        · exact fun more impossible _ => tilde impossible
        · exact fun more impossible _ => tilde impossible

theorem slash_not_mem_escape (token : List Char) : '/' ∉ token.flatMap escapeChar := by
  intro inside
  obtain ⟨c, -, written⟩ := List.mem_flatMap.mp inside
  unfold escapeChar at written
  split at written
  · exact absurd written (by decide)
  · split at written
    · exact absurd written (by decide)
    · rename_i other
      exact other (List.mem_singleton.mp written).symm

theorem escapeChar_cases (c : Char) :
    (escapeChar c = [c] ∧ '~' ≠ c ∧ '/' ≠ c) ∨ ((escapeChar c).length = 2 ∧ ('~' = c ∨ '/' = c)) := by
  unfold escapeChar
  split
  · rename_i tilde
    exact Or.inr ⟨rfl, Or.inl tilde.symm⟩
  · rename_i tilde
    split
    · rename_i slash
      exact Or.inr ⟨rfl, Or.inr slash.symm⟩
    · rename_i slash
      exact Or.inl ⟨rfl, Ne.symm tilde, Ne.symm slash⟩

theorem length_le_escape (token : List Char) : token.length ≤ (token.flatMap escapeChar).length := by
  induction token with
  | nil => exact Nat.le_refl _
  | cons c rest ih =>
    rw [List.flatMap_cons, List.length_append, List.length_cons]
    rcases escapeChar_cases c with ⟨one, -, -⟩ | ⟨two, -⟩
    · rw [one, List.length_singleton]
      omega
    · omega

theorem flatMap_escapeChar_eq_self_iff {token : List Char} :
    token.flatMap escapeChar = token ↔ '~' ∉ token ∧ '/' ∉ token := by
  induction token with
  | nil => simp
  | cons c rest ih =>
    rcases escapeChar_cases c with ⟨one, tilde, slash⟩ | ⟨two, special⟩
    · simp [one, tilde, slash, ih]
    · -- one character became two, and no other character makes up for it
      have grown : ¬ (c :: rest).flatMap escapeChar = c :: rest := by
        intro same
        have lengths := congrArg List.length same
        have least := length_le_escape rest
        rw [List.flatMap_cons, List.length_append, two, List.length_cons] at lengths
        omega
      constructor
      · exact fun same => absurd same grown
      · rintro ⟨tilde, slash⟩
        rcases special with rfl | rfl
        · exact absurd List.mem_cons_self tilde
        · exact absurd List.mem_cons_self slash

/-- Escaping leaves a token alone exactly when there is nothing to escape. -/
theorem escape_eq_self_iff {token : String} : escape token = token ↔ '~' ∉ token.toList ∧ '/' ∉ token.toList := by
  rw [← flatMap_escapeChar_eq_self_iff, ← String.toList_inj, escape, String.toList_ofList]

theorem unescapeChars_of_plain {token : List Char} (plain : '~' ∉ token) : unescapeChars token = token := by
  induction token with
  | nil => rfl
  | cons c rest ih =>
    obtain ⟨first, others⟩ := not_or.mp (mt List.mem_cons.mpr plain)
    rw [unescapeChars, ih others]
    · exact fun more same _ => first same.symm
    · exact fun more same _ => first same.symm

theorem splitSlashes_of_plain {token : List Char} (plain : '/' ∉ token) : splitSlashes token = [token] := by
  induction token with
  | nil => rfl
  | cons c rest ih =>
    obtain ⟨first, others⟩ := not_or.mp (mt List.mem_cons.mpr plain)
    simp only [splitSlashes, ih others, if_neg (Ne.symm first)]

/-- What may stand behind a token: nothing, or more tokens. -/
def Below (rest : String) : Prop := rest = "" ∨ ∃ more, rest = "/" ++ more

theorem toList_escape (token : String) : (escape token).toList = token.toList.flatMap escapeChar := by
  rw [escape, String.toList_ofList]

theorem takeWhile_escape (token : String) {rest : String} (below : Below rest) :
    (escape token ++ rest).toList.takeWhile (· ≠ '/') = (escape token).toList := by
  have clean : ∀ c ∈ (escape token).toList, (decide (c ≠ '/')) = true := by
    intro c inside
    rw [decide_eq_true_iff]
    rintro rfl
    rw [toList_escape] at inside
    exact slash_not_mem_escape _ inside
  have stop : rest.toList.takeWhile (· ≠ '/') = [] := by
    rcases below with rfl | ⟨more, rfl⟩
    · rfl
    · rw [String.toList_append]
      rfl
  rw [String.toList_append, List.takeWhile_append_of_pos clean, stop, List.append_nil]

/-- The first token of a written pointer, and what stands behind it, are determined. -/
theorem escape_append_inj {token token' rest rest' : String} (below : Below rest) (below' : Below rest')
    (same : escape token ++ rest = escape token' ++ rest') : token = token' ∧ rest = rest' := by
  have written : (escape token).toList = (escape token').toList := by
    rw [← takeWhile_escape token below, same, takeWhile_escape token' below']
  have tokens : token.toList = token'.toList := by
    rw [← unescapeChars_escape token.toList, ← toList_escape, written, toList_escape, unescapeChars_escape]
  obtain rfl := String.toList_inj.mp tokens
  refine ⟨rfl, ?_⟩
  have letters := congrArg String.toList same
  rw [String.toList_append, String.toList_append, List.append_cancel_left_eq] at letters
  exact String.toList_inj.mp letters

theorem head_toDigits {n : Nat} (positive : 0 < n) : ∃ first rest, Nat.toDigits 10 n = first :: rest ∧ first ≠ '0' := by
  induction n using Nat.strongRecOn with
  | ind n ih =>
    by_cases small : n < 10
    · rw [Nat.toDigits_of_lt_base small]
      exact ⟨_, [], rfl, (show ∀ n < 10, 0 < n → n.digitChar ≠ '0' by decide) n small positive⟩
    · obtain ⟨first, rest, digits, differ⟩ := ih (n / 10) (by omega) (by omega)
      rw [Nat.toDigits_of_base_le (by omega) (by omega), digits]
      exact ⟨first, _, rfl, differ⟩

/-- The decimal digits of an index are the token for it. -/
theorem index?_toString (n : Nat) : index? (toString n) = some n := by
  rcases Nat.eq_zero_or_pos n with rfl | positive
  · rfl
  · obtain ⟨first, rest, digits, differ⟩ := head_toDigits positive
    have all : (first :: rest).all Char.isDigit := by
      rw [← digits, List.all_eq_true]
      exact fun c member => Nat.isDigit_of_mem_toDigits (by omega) (by omega) member
    have value : (first :: rest).foldl (fun n c => n * 10 + (c.toNat - 48)) 0 = n := by
      have read := Nat.ofDigitChars_ten_toDigits (n := n)
      rw [digits] at read
      simp only [Nat.ofDigitChars, Nat.mul_comm 10] at read
      exact read
    unfold index?
    rw [Nat.toString_eq_ofList_toDigits, String.toList_ofList, digits]
    split
    · rename_i none
      cases none
    · rename_i zero
      cases zero
      exact absurd rfl differ
    · rw [if_pos all, value]

theorem splitSlashes_ne_nil (text : List Char) : splitSlashes text ≠ [] := by
  cases text with
  | nil => exact List.cons_ne_nil _ _
  | cons c rest =>
    rw [splitSlashes]
    split
    · exact List.cons_ne_nil _ _
    · split <;> exact List.cons_ne_nil _ _

theorem splitSlashes_append {token : List Char} (plain : '/' ∉ token) (rest : List Char) :
    splitSlashes (token ++ '/' :: rest) = token :: splitSlashes rest := by
  induction token with
  | nil =>
    rw [List.nil_append, splitSlashes]
    split
    · rename_i none
      exact absurd none (splitSlashes_ne_nil rest)
    · rename_i first others same
      rw [if_pos rfl, same]
  | cons c token ih =>
    obtain ⟨first, others⟩ := not_or.mp (mt List.mem_cons.mpr plain)
    rw [List.cons_append, splitSlashes, ih others]
    simp only [if_neg (Ne.symm first)]

/-- A written pointer with one token has no other slash. -/
theorem ofText?_eq_singleton_iff {text token : String} :
    ofText? ("/" ++ text) = some [token] ↔ '/' ∉ text.toList ∧ unescape text = token := by
  have letters : ("/" ++ text).toList = '/' :: text.toList := by
    rw [String.toList_append]
    rfl
  rw [ofText?, letters]
  by_cases slash : '/' ∈ text.toList
  · obtain ⟨before, after, whole, plain⟩ := List.eq_append_cons_of_mem slash
    obtain ⟨first, others, more⟩ := List.exists_cons_of_ne_nil (splitSlashes_ne_nil after)
    simp [whole, splitSlashes_append plain, more]
  · simp [splitSlashes_of_plain slash, slash, unescape]

theorem ofText?_append {token : String} (slash : '/' ∉ token.toList) (tilde : '~' ∉ token.toList) (text : String) :
    ofText? ("/" ++ token ++ "/" ++ text) = (ofText? ("/" ++ text)).map (token :: ·) := by
  have long : ("/" ++ token ++ "/" ++ text).toList = '/' :: (token.toList ++ '/' :: text.toList) := by
    simp [String.toList_append]
  have short : ("/" ++ text).toList = '/' :: text.toList := by
    rw [String.toList_append]
    rfl
  rw [ofText?, ofText?, long, short]
  simp only [splitSlashes_append slash, List.map_cons, unescapeChars_of_plain tilde, String.ofList_toList,
    Option.map_some]

theorem toList_text_cons (token : String) (rest : Pointer) :
    (text (token :: rest)).toList = '/' :: (token.toList.flatMap escapeChar ++ (text rest).toList) := by
  rw [text, text, List.map_cons, String.join_cons, String.toList_append, String.toList_append, toList_escape]
  rfl

/-- A written pointer is read back as the pointer. -/
theorem ofText?_text (pointer : Pointer) : ofText? pointer.text = some pointer := by
  have tokens (token : String) (rest : Pointer) :
      (splitSlashes (token.toList.flatMap escapeChar ++ (text rest).toList)).map
        (fun written => String.ofList (unescapeChars written)) = token :: rest := by
    induction rest generalizing token with
    | nil =>
      rw [show (text []).toList = [] from rfl, List.append_nil, splitSlashes_of_plain (slash_not_mem_escape _),
        List.map_singleton, unescapeChars_escape, String.ofList_toList]
    | cons next rest ih =>
      rw [toList_text_cons, splitSlashes_append (slash_not_mem_escape _), List.map_cons, unescapeChars_escape,
        String.ofList_toList, ih]
  cases pointer with
  | nil => rfl
  | cons token rest =>
    rw [ofText?, toList_text_cons]
    exact congrArg some (tokens token rest)

/-- Different pointers are written differently. -/
theorem text_injective : Function.Injective text := fun pointer pointer' same =>
  Option.some.inj ((ofText?_text pointer).symm.trans ((congrArg ofText? same).trans (ofText?_text pointer')))

end Pointer

namespace Json

theorem pointer?_text (value : Json) (pointer : Pointer) : value.pointer? pointer.text = value.resolve? pointer := by
  rw [pointer?, Pointer.ofText?_text, Option.bind_some]

/-- A token that is written as it is leads to the member of that name, and the pointer goes on from there. -/
theorem pointer?_append (value : Json) {token : String} (slash : '/' ∉ token.toList) (tilde : '~' ∉ token.toList)
    (text : String) :
    value.pointer? ("/" ++ token ++ "/" ++ text) = (value.member? token).bind (·.pointer? ("/" ++ text)) := by
  unfold pointer?
  rw [Pointer.ofText?_append slash tilde]
  cases Pointer.ofText? ("/" ++ text) with
  | none => exact (Option.bind_fun_none _).symm
  | some path => rfl

end Json

end Schemata
