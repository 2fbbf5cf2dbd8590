namespace Schemata

namespace Text

def hexDigitValue? (c : Char) : Option Nat :=
  if c.isDigit then some (c.toNat - 48)
  else if 'a' ≤ c ∧ c ≤ 'f' then some (c.toNat - 87)
  else if 'A' ≤ c ∧ c ≤ 'F' then some (c.toNat - 55)
  else none

def hexNumber? (digits : List Char) : Option Nat :=
  digits.foldlM (fun n c => (hexDigitValue? c).map (n * 16 + ·)) 0

/-- The bytes of a text whose escapes are replaced; a percent sign that starts no escape stands for itself. -/
def percentBytes : List Char → List UInt8
  | '%' :: a :: b :: rest =>
    match hexNumber? [a, b] with
    | some byte => byte.toUInt8 :: percentBytes rest
    | none => "%".toUTF8.toList ++ percentBytes (a :: b :: rest)
  | c :: rest => c.toString.toUTF8.toList ++ percentBytes rest
  | [] => []

/-- The text whose escapes are replaced; nothing when the bytes are no text. -/
def percentDecode? (text : String) : Option String := String.fromUTF8? ⟨(percentBytes text.toList).toArray⟩

end Text

end Schemata
