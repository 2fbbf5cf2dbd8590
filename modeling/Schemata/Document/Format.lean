import Schemata.Text.Cut

namespace Schemata

/-- How a document is written. -/
inductive DocumentFormat where
  | json
  | yaml
deriving DecidableEq, Repr

namespace DocumentFormat

/-- The name with its ASCII letters in lower case. -/
def lowered (name : String) : String := String.ofList (name.toList.map Text.lowerAscii)

/-- The format of a name in lower case. -/
def ofLowered? (name : String) : Option DocumentFormat :=
  if name = "json" then some .json
  else if name = "yaml" || name = "yml" then some .yaml
  else none

/-- The format of a name in any case; the name in lower case when there is none. -/
def ofName (name : String) : Except String DocumentFormat :=
  match ofLowered? (lowered name) with
  | some format => .ok format
  | none => .error (lowered name)

/-- The last component of a path that is a name; slashes at the end do not count. -/
def fileName? (path : String) : Option (List Char) :=
  match ((Text.pieces (· == '/') path.toList).filter fun part => part ≠ [] ∧ part ≠ ['.']).getLast? with
  | none => none
  | some name => if name = ['.', '.'] then none else some name

/-- What stands behind the last dot of a name that does not start with it. -/
def extension? (name : List Char) : Option (List Char) :=
  match Text.pieces (· == '.') name with
  | [] => none
  | [_] => none
  | [[], _] => none
  | parts => parts.getLast?

/-- The format that a path's extension names. -/
def ofPath? (path : String) : Option DocumentFormat :=
  ((fileName? path).bind extension?).bind fun extension => ofLowered? (lowered (String.ofList extension))

/-- The message for a name or path without a format. -/
def unsupportedMessage (name : String) : String := s!"unsupported document format: {name}"

end DocumentFormat

end Schemata
