import Schemata.Draft7.Pattern
import Schemata.Text.Percent

namespace Schemata

namespace Draft7

namespace Pattern

def digitRanges : List (Nat × Nat) := [(0x30, 0x39)]

/-- The letters, the digits and the underscore. -/
def wordRanges : List (Nat × Nat) := [(0x30, 0x39), (0x41, 0x5a), (0x5f, 0x5f), (0x61, 0x7a)]

def spaceRanges : List (Nat × Nat) :=
  [(0x9, 0xd), (0x20, 0x20), (0xa0, 0xa0), (0x1680, 0x1680), (0x2000, 0x200a), (0x2028, 0x2029), (0x202f, 0x202f),
    (0x205f, 0x205f), (0x3000, 0x3000), (0xfeff, 0xfeff)]

/-- The characters that are in none of the ranges, which are in increasing order. -/
def complement (ranges : List (Nat × Nat)) : List (Nat × Nat) :=
  let (next, gaps) := ranges.foldl (fun (next, gaps) (low, high) =>
    (high + 1, if next < low then gaps ++ [(next, low - 1)] else gaps)) (0, [])
  gaps ++ [(next, 0x10ffff)]

/-- The ranges that a class letter stands for. -/
def classRanges? : Char → Option (List (Nat × Nat))
  | 'd' => some digitRanges
  | 'D' => some (complement digitRanges)
  | 'w' => some wordRanges
  | 'W' => some (complement wordRanges)
  | 's' => some spaceRanges
  | 'S' => some (complement spaceRanges)
  | _ => none

/-- Reads the digits of a code of so many hexadecimal digits. -/
def hexCode? (length : Nat) (text : List Char) : Option (Nat × List Char) := do
  let digits := text.take length
  if digits.length < length then none
  return (← Text.hexNumber? digits, text.drop length)

/-- Reads the code of an escaped character, behind the backslash. -/
def escapeCode? : List Char → Option (Nat × List Char)
  | 't' :: rest => some (9, rest)
  | 'n' :: rest => some (10, rest)
  | 'v' :: rest => some (11, rest)
  | 'f' :: rest => some (12, rest)
  | 'r' :: rest => some (13, rest)
  | '0' :: rest => some (0, rest)
  | 'c' :: letter :: rest => if letter.isAlpha then some (letter.toNat % 32, rest) else none
  | 'x' :: rest => hexCode? 2 rest
  | 'u' :: '\x7b' :: rest => do
    let digits := rest.takeWhile (· ≠ '\x7d')
    if digits.isEmpty || (rest.drop digits.length).isEmpty then none
    return (← Text.hexNumber? digits, rest.drop (digits.length + 1))
  | 'u' :: rest => hexCode? 4 rest
  | c :: rest => if c.isAlphanum then none else some (c.toNat, rest)
  | [] => none

/-- Reads one member of a class in brackets: the ranges of a class letter, or a character. -/
def classMember? : List Char → Option ((List (Nat × Nat) ⊕ Nat) × List Char)
  | '\\' :: 'b' :: rest => some (.inr 8, rest)
  | '\\' :: c :: rest =>
    match classRanges? c with
    | some ranges => some (.inl ranges, rest)
    | none => (escapeCode? (c :: rest)).map fun (code, rest) => (.inr code, rest)
  | '\\' :: [] => none
  | c :: rest => some (.inr c.toNat, rest)
  | [] => none

/-- Reads the members of a class up to its closing bracket. A hyphen makes a range of the characters around it. -/
def classRangesFrom : Nat → List (Nat × Nat) → List Char → Option (List (Nat × Nat) × List Char)
  | 0, _, _ => none
  | _ + 1, ranges, ']' :: rest => some (ranges, rest)
  | fuel + 1, ranges, text => do
    let (member, rest) ← classMember? text
    match member, rest with
    | .inl set, rest => classRangesFrom fuel (ranges ++ set) rest
    | .inr low, '-' :: ']' :: rest => some (ranges ++ [(low, low), (0x2d, 0x2d)], rest)
    | .inr low, '-' :: rest =>
      let (high, rest) ← classMember? rest
      match high with
      | .inl set => classRangesFrom fuel (ranges ++ [(low, low), (0x2d, 0x2d)] ++ set) rest
      | .inr high => if high < low then none else classRangesFrom fuel (ranges ++ [(low, high)]) rest
    | .inr low, rest => classRangesFrom fuel (ranges ++ [(low, low)]) rest

/-- Reads a class behind its opening bracket; a caret at its start stands for all other characters. -/
def classSet? (text : List Char) : Option (Pattern × List Char) := do
  let (negated, text) := match text with
    | '^' :: rest => (true, rest)
    | rest => (false, rest)
  let (ranges, rest) ← classRangesFrom (text.length + 1) [] text
  return (.one ⟨negated, ranges⟩, rest)

def number? (text : List Char) : Option (Nat × List Char) :=
  let digits := text.takeWhile Char.isDigit
  if digits.isEmpty then none
  else some (digits.foldl (fun n c => n * 10 + (c.toNat - 48)) 0, text.drop digits.length)

/-- Reads the bounds of a repetition behind an opening brace. -/
def bounds? (text : List Char) : Option (Nat × Option Nat × List Char) := do
  let (least, rest) ← number? text
  match rest with
  | '\x7d' :: rest => return (least, some least, rest)
  | ',' :: '\x7d' :: rest => return (least, none, rest)
  | ',' :: rest =>
    let (most, rest) ← number? rest
    match rest with
    | '\x7d' :: rest => if most < least then none else return (least, some most, rest)
    | _ => none
  | _ => none

/-- A mark of repetition, if one is next. -/
def repetition? : List Char → Option (Nat × Option Nat × List Char)
  | '*' :: rest => some (0, none, rest)
  | '+' :: rest => some (1, none, rest)
  | '?' :: rest => some (0, some 1, rest)
  | '\x7b' :: rest => bounds? rest
  | _ => none

/-- The piece with its repetition. A question mark behind it asks for the fewest repetitions, which does not
change where a match exists. -/
def withRepetition (piece : Pattern) (text : List Char) : Pattern × List Char :=
  match repetition? text with
  | none => (piece, text)
  | some (least, most, '?' :: rest) => (.repeated piece least most, rest)
  | some (least, most, rest) => (.repeated piece least most, rest)

/-- What stands between the parenthesis and the body of a group, and what the group makes of its body. -/
def groupHead? : List Char → Option ((Pattern → Pattern) × List Char)
  | '?' :: ':' :: rest => some (id, rest)
  | '?' :: '=' :: rest => some (.look true true, rest)
  | '?' :: '!' :: rest => some (.look true false, rest)
  | '?' :: '<' :: '=' :: rest => some (.look false true, rest)
  | '?' :: '<' :: '!' :: rest => some (.look false false, rest)
  | '?' :: '<' :: rest =>
    let name := rest.takeWhile (· ≠ '>')
    if name.isEmpty || !name.all isWordChar || rest.length = name.length then none
    else some (id, rest.drop (name.length + 1))
  | '?' :: _ => none
  | rest => some (id, rest)

/-- Any character but a line feed. -/
def anyChar : Pattern := .one ⟨true, [(10, 10)]⟩

/-- Reads an escape behind its backslash. -/
def escape? : List Char → Option (Pattern × List Char)
  | 'b' :: rest => some (.wordEdge true, rest)
  | 'B' :: rest => some (.wordEdge false, rest)
  | c :: rest =>
    match classRanges? c with
    | some ranges => some (.one ⟨false, ranges⟩, rest)
    | none => (escapeCode? (c :: rest)).map fun (code, rest) => (.one ⟨false, [(code, code)]⟩, rest)
  | [] => none

mutual
/-- Reads choices between bars, up to a closing parenthesis or the end. -/
def choices : Nat → List Char → Option (Pattern × List Char)
  | 0, _ => none
  | fuel + 1, text => do
    let (first, rest) ← pieces fuel .empty text
    match rest with
    | '|' :: rest =>
      let (others, rest) ← choices fuel rest
      return (.choice first others, rest)
    | rest => return (first, rest)

/-- Reads the pieces of a choice; `before` is what was read of it. -/
def pieces : Nat → Pattern → List Char → Option (Pattern × List Char)
  | 0, _, _ => none
  | _ + 1, before, [] => some (before, [])
  | _ + 1, before, '|' :: rest => some (before, '|' :: rest)
  | _ + 1, before, ')' :: rest => some (before, ')' :: rest)
  | fuel + 1, before, text => do
    let (piece, rest) ← atom fuel text
    let (piece, rest) := withRepetition piece rest
    pieces fuel (if before = .empty then piece else .sequence before piece) rest

/-- Reads one piece without its repetition. -/
def atom : Nat → List Char → Option (Pattern × List Char)
  | 0, _ => none
  | fuel + 1, '(' :: rest => do
    let (make, rest) ← groupHead? rest
    let (body, rest) ← choices fuel rest
    match rest with
    | ')' :: rest => return (make body, rest)
    | _ => none
  | _ + 1, '[' :: rest => classSet? rest
  | _ + 1, '\\' :: rest => escape? rest
  | _ + 1, '^' :: rest => some (.textStart, rest)
  | _ + 1, '$' :: rest => some (.textEnd, rest)
  | _ + 1, '.' :: rest => some (anyChar, rest)
  | _ + 1, c :: rest => if ['*', '+', '?'].contains c then none else some (.one ⟨false, [(c.toNat, c.toNat)]⟩, rest)
  | _ + 1, [] => none
end

def ofText? (text : String) : Option Pattern :=
  match choices (3 * text.length + 3) text.toList with
  | some (pattern, []) => some pattern
  | _ => none

end Pattern

end Draft7

end Schemata
