import Schemata.Yaml.Value

namespace Schemata

namespace Yaml

/-- The written form of a number; a positive exponent has no sign. -/
def floatText : Extended → String
  | .finite value => String.ofList (value.toJsonText.toList.filter (· ≠ '+'))
  | .infinite negative => if negative then "-.inf" else ".inf"
  | .nan => ".nan"

/-- Why a value has no JSON form. -/
inductive ConversionError where
  | notFinite (number : Extended)
  | collectionKey

def ConversionError.message : ConversionError → String
  | .notFinite number => s!"number `{floatText number}` has no JSON representation"
  | .collectionKey => "mapping keys must be scalars"

namespace Value

def keyText : Value → Except ConversionError String
  | .string text => .ok text
  | .int n _ => .ok (toString n)
  | .float x => .ok (floatText x)
  | .bool b => .ok (if b then "true" else "false")
  | .null => .ok "null"
  | .tagged _ value => keyText value
  | .sequence _ => .error .collectionKey
  | .mapping _ => .error .collectionKey

mutual
def toJson : Value → Except ConversionError Json
  | .null => .ok .null
  | .bool b => .ok (.bool b)
  | .int n h => .ok (.number (.int n h))
  | .float (.finite x) => .ok (.number (.float x))
  | .float x => .error (.notFinite x)
  | .string text => .ok (.string text)
  | .sequence items => (itemsToJson items).map .array
  | .mapping entries => (entriesToJson [] entries).map .object
  | .tagged _ value => value.toJson

def itemsToJson : List Value → Except ConversionError (List Json)
  | [] => .ok []
  | item :: rest => do
    let first ← item.toJson
    return first :: (← itemsToJson rest)

/-- Entry by entry, the key before the value; of entries with one text the last value stands in the place of
the first. -/
def entriesToJson (object : Table Json) : List (Value × Value) → Except ConversionError (Table Json)
  | [] => .ok object
  | (key, value) :: rest => do
    let name ← key.keyText
    let member ← value.toJson
    entriesToJson (Table.insert object name member) rest
end

end Value

end Yaml

end Schemata
