import Schemata.Decimal.Extended
import Schemata.Json.Basic
import Schemata.Text.Percent

namespace Schemata

namespace Yaml

inductive Value where
  | null
  | bool (value : Bool)
  | int (value : Int) (inRange : IntegerRange value)
  | float (value : Extended)
  | string (value : String)
  | sequence (items : List Value)
  | mapping (entries : List (Value × Value))
  | tagged (tag : String) (value : Value)
deriving Inhabited

namespace Value

/-- The same floating-point value, where not-a-number is one value and so is zero. -/
def sameFloat : Extended → Extended → Bool
  | .nan, .nan => true
  | a, b => a.sameNumber b

mutual
/-- The same value: entries in any order, and an integer is never a floating-point number. -/
def same : Value → Value → Bool
  | .null, .null => true
  | .bool a, .bool b => a == b
  | .int a _, .int b _ => a == b
  | .float a, .float b => sameFloat a b
  | .string a, .string b => a == b
  | .sequence a, .sequence b => sameItems a b
  | .mapping a, .mapping b => a.length == b.length && sameEntries a b
  | .tagged s a, .tagged t b => s == t && a.same b
  | _, _ => false

def sameItems : List Value → List Value → Bool
  | [], [] => true
  | a :: as, b :: bs => a.same b && sameItems as bs
  | _, _ => false

/-- Every entry has a partner. -/
def sameEntries : List (Value × Value) → List (Value × Value) → Bool
  | [], _ => true
  | (key, value) :: rest, others =>
    others.any (fun other => key.same other.1 && value.same other.2) && sameEntries rest others
end

/-- No two of the keys are the same value. -/
def keysDiffer : List Value → Bool
  | [] => true
  | key :: rest => rest.all (fun other => !key.same other) && keysDiffer rest

/-- The words for null. -/
def nullWords : List String := ["null", "Null", "NULL", "~"]

/-- The truth value that a word stands for. -/
def boolOf? (text : String) : Option Bool :=
  if ["true", "True", "TRUE"].contains text then some true
  else if ["false", "False", "FALSE"].contains text then some false
  else none

/-- A zero followed by more digits, after a sign or none: such a text is no number. -/
def isPadded (text : List Char) : Bool :=
  let digits := match text with
    | '-' :: rest => rest
    | '+' :: rest => rest
    | rest => rest
  1 < digits.length && digits.head? == some '0' && digits.all Char.isDigit

/-- The number that digits write in a base up to sixteen; there must be some. -/
def digitsValue? (base : Nat) (digits : List Char) : Option Nat :=
  if digits.isEmpty then none
  else digits.foldlM (fun n c => ((Text.hexDigitValue? c).filter (· < base)).map (n * base + ·)) 0

/-- The number that digits write, in the base that their start names. -/
def magnitude? : List Char → Option Nat
  | '0' :: 'x' :: digits => digitsValue? 16 digits
  | '0' :: 'o' :: digits => digitsValue? 8 digits
  | '0' :: 'b' :: digits => digitsValue? 2 digits
  | digits => if isPadded digits then none else digitsValue? 10 digits

/-- The integer that a text writes, of any size. -/
def integer? : List Char → Option Int
  | '-' :: rest => (magnitude? rest).map fun n => -(n : Int)
  | '+' :: rest => (magnitude? rest).map Int.ofNat
  | rest => (magnitude? rest).map Int.ofNat

/-- The integers that are read as such; those of them outside the 64-bit range have no value. -/
def isWide (n : Int) : Bool := -0x80000000000000000000000000000000 ≤ n && n < 0x100000000000000000000000000000000

/-- The floating-point number that a text writes: one of the words for the values that are no numbers, or a
decimal in the finite range. -/
def float? (text : String) : Option Extended :=
  if [".inf", ".Inf", ".INF", "+.inf", "+.Inf", "+.INF"].contains text then some (.infinite false)
  else if ["-.inf", "-.Inf", "-.INF"].contains text then some (.infinite true)
  else if [".nan", ".NaN", ".NAN"].contains text then some .nan
  else match Extended.ofText? text with
    | some (.finite value) => some (.finite value)
    | _ => none

/-- The value of an integer; none outside the 64-bit range. -/
def ofInteger (n : Int) : Option Value := if h : IntegerRange n then some (.int n h) else none

def ofPlain (text : String) : Option Value :=
  if text.isEmpty || nullWords.contains text then some .null
  else match boolOf? text with
    | some value => some (.bool value)
    | none =>
      match (integer? text.toList).filter isWide with
      | some n => ofInteger n
      | none =>
        match if isPadded text.toList then none else float? text with
        | some value => some (.float value)
        | none => some (.string text)

/-- The value of a scalar under one of the standard tags; under any other tag it is a text. -/
def ofStandard (tag text : String) : Option Value :=
  if tag = "tag:yaml.org,2002:bool" then (boolOf? text).map .bool
  else if tag = "tag:yaml.org,2002:int" then ((integer? text.toList).filter isWide).bind ofInteger
  else if tag = "tag:yaml.org,2002:float" then (float? text).map .float
  else if tag = "tag:yaml.org,2002:null" then if nullWords.contains text then some .null else none
  else some (.string text)

/-- The name of a tag of the document's own. -/
def ownTag? (tag : String) : Option String :=
  match tag.toList with
  | ['!'] => some "!"
  | '!' :: name => some (String.ofList name)
  | _ => none

/-- A value under a tag of the document's own; standard tags leave no trace. -/
def withTag (tag : Option String) (value : Value) : Value := (tag.bind ownTag?).elim value (.tagged · value)

/-- The value of a scalar. An exclamation mark alone is no tag, and a tag of the document's own is kept beside
the value. -/
def ofScalar (tag : Option String) (text : String) (plain : Bool) : Option Value :=
  let untagged := if plain then ofPlain text else some (.string text)
  match tag.filter (· ≠ "!") with
  | none => untagged
  | some tag => if (ownTag? tag).isSome then untagged.map (withTag (some tag)) else ofStandard tag text

end Value

end Yaml

end Schemata
