import Schemata.Decimal.Notation
import Schemata.Text.Cut

namespace Schemata

/-- A floating-point value of 64 bits. -/
inductive Extended where
  | finite (value : Binary64)
  | infinite (negative : Bool)
  | nan
deriving DecidableEq

namespace Extended

instance : Inhabited Extended := ⟨.nan⟩

/-- Equal as numbers: not-a-number equals nothing, the two zeros are one number. -/
def sameNumber : Extended → Extended → Bool
  | .finite a, .finite b => a.sameNumber b
  | .infinite a, .infinite b => a == b
  | _, _ => false

/-- Always positional, and whole numbers without a fraction. -/
def toPlainText : Extended → String
  | .finite value => value.toPlainText
  | .infinite negative => if negative then "-inf" else "inf"
  | .nan => "NaN"

/-- The value nearest to a decimal; infinity past the finite range. -/
def ofDecimal (negative : Bool) (digits : Nat) (exponent : Int) : Extended :=
  match Binary64.ofDecimal? negative digits exponent with
  | some value => .finite value
  | none => .infinite negative

def digitsValue (digits : List Char) : Nat := digits.foldl (fun n c => n * 10 + (c.toNat - 48)) 0

/-- A signed run of digits that takes the whole text. -/
def exponent? (text : List Char) : Option Int :=
  let (negative, digits) := match text with
    | '-' :: rest => (true, rest)
    | '+' :: rest => (false, rest)
    | _ => (false, text)
  if digits.isEmpty || !digits.all Char.isDigit then none
  else some (if negative then -(digitsValue digits : Int) else digitsValue digits)

/-- A number after its sign: digits on at least one side of the point, then an exponent or nothing. -/
def decimal? (negative : Bool) (text : List Char) : Option Extended :=
  let whole := text.takeWhile Char.isDigit
  let (fraction, rest) := match text.dropWhile Char.isDigit with
    | '.' :: rest => (rest.takeWhile Char.isDigit, rest.dropWhile Char.isDigit)
    | rest => ([], rest)
  if whole.isEmpty && fraction.isEmpty then none
  else
    let value (exponent : Int) := ofDecimal negative (digitsValue (whole ++ fraction)) (exponent - fraction.length)
    match rest with
    | [] => some (value 0)
    | 'e' :: rest => (exponent? rest).map value
    | 'E' :: rest => (exponent? rest).map value
    | _ => none

/-- A value after its sign. -/
def unsigned? (negative : Bool) (text : List Char) : Option Extended :=
  let word := String.ofList (text.map Text.lowerAscii)
  if word = "inf" || word = "infinity" then some (.infinite negative)
  else if word = "nan" then some .nan
  else decimal? negative text

def ofText? (text : String) : Option Extended :=
  match text.toList with
  | '-' :: rest => unsigned? true rest
  | '+' :: rest => unsigned? false rest
  | rest => unsigned? false rest

end Extended

end Schemata
