import Schemata.Json.Basic

namespace Schemata

namespace Json

/-- A hexadecimal digit in lower case. -/
def hexDigit (n : Nat) : Char := (Nat.toDigits 16 (n % 16)).headD '0'

/-- One character inside quotes. -/
def escapeChar (c : Char) : List Char :=
  if c = '"' then ['\\', '"']
  else if c = '\\' then ['\\', '\\']
  else if c = '\n' then ['\\', 'n']
  else if c = '\r' then ['\\', 'r']
  else if c = '\t' then ['\\', 't']
  else if c = '\x08' then ['\\', 'b']
  else if c = '\x0c' then ['\\', 'f']
  else if c.toNat < 32 then ['\\', 'u', '0', '0', hexDigit (c.toNat / 16), hexDigit c.toNat]
  else [c]

def quoted (text : String) : String := String.ofList ('"' :: (text.toList.flatMap escapeChar ++ ['"']))

def compact : Json → String
  | .null => "null"
  | .bool value => if value then "true" else "false"
  | .number value => value.text
  | .string value => quoted value
  | .array items => "[" ++ compactItems items ++ "]"
  | .object fields => "\x7b" ++ compactFields fields ++ "\x7d"
where
  compactItems : List Json → String
    | [] => ""
    | [value] => value.compact
    | value :: rest => value.compact ++ "," ++ compactItems rest
  compactFields : List (String × Json) → String
    | [] => ""
    | [(name, value)] => quoted name ++ ":" ++ value.compact
    | (name, value) :: rest => quoted name ++ ":" ++ value.compact ++ "," ++ compactFields rest

/-- A line break and the blanks of a nesting level. -/
def newLine (level : Nat) : String := String.ofList ('\n' :: List.replicate (2 * level) ' ')

mutual
/-- The indented form of a value that starts at nesting level `level`. -/
def indented (level : Nat) : Json → String
  | .null => "null"
  | .bool value => if value then "true" else "false"
  | .number value => value.text
  | .string value => quoted value
  | .array [] => "[]"
  | .array (value :: rest) =>
    "[" ++ newLine (level + 1) ++ indented (level + 1) value ++ indentedItems (level + 1) rest
      ++ newLine level ++ "]"
  | .object [] => "\x7b\x7d"
  | .object ((name, value) :: rest) =>
    "\x7b" ++ newLine (level + 1) ++ quoted name ++ ": " ++ indented (level + 1) value
      ++ indentedFields (level + 1) rest ++ newLine level ++ "\x7d"

/-- The members after the first. -/
def indentedItems (level : Nat) : List Json → String
  | [] => ""
  | value :: rest => "," ++ newLine level ++ indented level value ++ indentedItems level rest

/-- The entries after the first. -/
def indentedFields (level : Nat) : List (String × Json) → String
  | [] => ""
  | (name, value) :: rest =>
    "," ++ newLine level ++ quoted name ++ ": " ++ indented level value ++ indentedFields level rest
end

def pretty (value : Json) : String := indented 0 value

end Json

end Schemata
