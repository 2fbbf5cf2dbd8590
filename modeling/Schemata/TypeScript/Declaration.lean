import Schemata.Json.Basic
import Schemata.TypeScript.Type

namespace Schemata

inductive TsExpr where
  | identifier (name : String)
  | literal (value : Literal)
  /-- A JSON value written as a literal. -/
  | json (value : Json)
  | object (fields : List (String × TsExpr))
  | call (callee : TsExpr) (typeArguments : List TsType) (arguments : List TsExpr)

/-- What an exported type is declared as. -/
inductive TypeBody where
  | interface (properties : List Property)
  | alias (type : TsType)

/-- An exported type. -/
structure TypeDeclaration where
  name : String
  doc : Option String := none
  body : TypeBody

/-- An exported constant. -/
structure ConstDeclaration where
  name : String
  type : Option TsType := none
  value : TsExpr

/-- A name that is imported, under another name if one is given. -/
structure ImportName where
  name : String
  rename : Option String := none

structure ImportDeclaration where
  standard : Option String := none
  names : List ImportName := []
  source : String
  typeOnly : Bool := false

inductive ModuleItem where
  | type (declaration : TypeDeclaration)
  | const (declaration : ConstDeclaration)
  | code (text : String)

structure TsModule where
  banner : Option String := none
  imports : List ImportDeclaration := []
  items : List ModuleItem := []

end Schemata
