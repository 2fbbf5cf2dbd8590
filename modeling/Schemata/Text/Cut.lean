namespace Schemata

namespace Text

/-- What follows `start` in the text, when the text starts so. -/
def after? : List Char → List Char → Option (List Char)
  | [], text => some text
  | _ :: _, [] => none
  | s :: start, c :: text => if s = c then after? start text else none

/-- `after?` on strings. -/
def dropStart? (start text : String) : Option String := (after? start.toList text.toList).map String.ofList

/-- The text starts so. -/
def startsWith (text start : String) : Bool := (after? start.toList text.toList).isSome

/-- The pieces between the characters that a test picks out; there is one more piece than such characters. -/
def pieces (separates : Char → Bool) : List Char → List (List Char)
  | [] => [[]]
  | c :: rest =>
    match pieces separates rest with
    | [] => [[c]]
    | first :: others => if separates c then [] :: first :: others else (c :: first) :: others

/-- The letter in upper case, when it is an ASCII letter; any other character as it is. -/
def upperAscii (c : Char) : Char := if 'a' ≤ c ∧ c ≤ 'z' then Char.ofNat (c.toNat - 32) else c

/-- The letter in lower case, when it is an ASCII letter; any other character as it is. -/
def lowerAscii (c : Char) : Char := if 'A' ≤ c ∧ c ≤ 'Z' then Char.ofNat (c.toNat + 32) else c

/-- The text with its first character in upper case. -/
def capitalized : List Char → List Char
  | [] => []
  | c :: rest => upperAscii c :: rest

end Text

end Schemata
