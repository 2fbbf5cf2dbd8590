import Schemata.TypeScript.Declaration
import Schemata.TypeScript.Text

namespace Schemata

def Primitive.text : Primitive → String
  | .string => "string"
  | .number => "number"
  | .boolean => "boolean"
  | .null => "null"
  | .unknown => "unknown"
  | .never => "never"

def Literal.text : Literal → String
  | .string value => Json.quoted value
  | .int value => toString value
  | .number value => value.toPlainText
  | .bool value => if value then "true" else "false"
  | .null => "null"

namespace TsType

def isCombination : TsType → Bool
  | .union _ => true
  | .intersection _ => true
  | _ => false

def isUnion : TsType → Bool
  | .union _ => true
  | _ => false

/-- The text in parentheses, where the test asks for them. -/
def parenthesized (needed : Bool) (text : String) : String := if needed then "(" ++ text ++ ")" else text

mutual
def text : TsType → String
  | .primitive kind => kind.text
  | .literal value => value.text
  | .array element => parenthesized element.isCombination element.text ++ "[]"
  | .tuple items rest =>
    let others := match rest with
      | none => []
      | some element => ["..." ++ parenthesized element.isCombination element.text ++ "[]"]
    "[" ++ String.intercalate ", " (texts items ++ others) ++ "]"
  | .union members => String.intercalate " | " (texts members)
  | .intersection members => String.intercalate " & " (memberTexts members)
  | .object [] => "\x7b\x7d"
  | .object (first :: rest) => "\x7b " ++ String.intercalate "; " (propertyTexts (first :: rest)) ++ " \x7d"
  | .record key value => "Record<" ++ key.text ++ ", " ++ value.text ++ ">"
  | .ref name => name

def texts : List TsType → List String
  | [] => []
  | type :: rest => type.text :: texts rest

/-- The texts of the members of an intersection. -/
def memberTexts : List TsType → List String
  | [] => []
  | type :: rest => parenthesized type.isUnion type.text :: memberTexts rest

def propertyTexts : List (PropertyOf TsType) → List String
  | [] => []
  | ⟨name, type, isOptional, _⟩ :: rest =>
    (TsText.key name ++ (if isOptional then "?" else "") ++ ": " ++ type.text) :: propertyTexts rest
end

def propertyText (p : Property) : String :=
  TsText.key p.name ++ (if p.isOptional then "?" else "") ++ ": " ++ p.type.text

end TsType

namespace TsExpr

mutual
def text : TsExpr → String
  | .identifier name => name
  | .literal value => value.text
  | .json value => value.pretty
  | .object [] => "\x7b\x7d"
  | .object (first :: rest) =>
    "\x7b\n  " ++ String.intercalate ",\n  " (fieldTexts (first :: rest)) ++ ",\n\x7d"
  | .call callee typeArguments arguments =>
    let types := if typeArguments.isEmpty then ""
      else "<" ++ String.intercalate ", " (typeArguments.map TsType.text) ++ ">"
    callee.text ++ types ++ "(" ++ String.intercalate ", " (texts arguments) ++ ")"

def texts : List TsExpr → List String
  | [] => []
  | value :: rest => value.text :: texts rest

/-- The texts of fields; one whose value is written like its key is written once. -/
def fieldTexts : List (String × TsExpr) → List String
  | [] => []
  | (name, value) :: rest =>
    let key := TsText.key name
    let written := value.text
    (if key = written then key else key ++ ": " ++ written) :: fieldTexts rest
end

end TsExpr

/-- A doc comment, if there is something to say. -/
def TsText.docText (doc : Option String) (indent : String) : String := doc.elim "" fun text => docComment text indent

def TypeBody.propertyLine (p : Property) : String :=
  TsText.docText p.doc "  " ++ "  " ++ TsType.propertyText p ++ ";\n"

def TypeDeclaration.text (d : TypeDeclaration) : String :=
  TsText.docText d.doc "" ++ match d.body with
    | .interface properties =>
      "export interface " ++ d.name ++ " \x7b\n" ++ String.join (properties.map TypeBody.propertyLine) ++ "\x7d\n"
    | .alias type => "export type " ++ d.name ++ " = " ++ type.text ++ ";\n"

def ConstDeclaration.text (d : ConstDeclaration) : String :=
  let type := d.type.elim "" fun type => ": " ++ type.text
  "export const " ++ d.name ++ type ++ " = " ++ d.value.text ++ ";\n"

def ImportName.text (n : ImportName) : String := n.rename.elim n.name fun rename => n.name ++ " as " ++ rename

def ImportDeclaration.text (d : ImportDeclaration) : String :=
  let named := "\x7b " ++ String.intercalate ", " (d.names.map ImportName.text) ++ " \x7d"
  let source := Json.quoted d.source
  let imported := match d.standard, d.names with
    | some standard, [] => some standard
    | some standard, _ => some (standard ++ ", " ++ named)
    | none, [] => none
    | none, _ => some named
  match imported with
  | none => "import " ++ source ++ ";\n"
  | some imported => "import " ++ (if d.typeOnly then "type " else "") ++ imported ++ " from " ++ source ++ ";\n"

def ModuleItem.text : ModuleItem → String
  | .type declaration => declaration.text
  | .const declaration => declaration.text
  | .code text => String.ofList (Text.trimEnd text.toList ++ ['\n'])

/-- A line of the banner, as a comment. -/
def TsText.bannerLine (line : List Char) : String :=
  String.ofList (Text.trimEnd (['/', '/', ' '] ++ line) ++ ['\n'])

/-- The text of a module: the banner, the imports and the items, set off by blank lines. -/
def TsModule.text (m : TsModule) : String :=
  (m.banner.elim "" fun banner => String.join ((Text.lines banner.toList).map TsText.bannerLine) ++ "\n")
    ++ String.join (m.imports.map ImportDeclaration.text)
    ++ (if m.imports.isEmpty then "" else "\n")
    ++ String.intercalate "\n" (m.items.map ModuleItem.text)

end Schemata
