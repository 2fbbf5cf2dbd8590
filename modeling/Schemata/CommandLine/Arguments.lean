import Schemata.CommandLine.Configuration
import Schemata.Document.Format

namespace Schemata

/-- Where the document of a command comes from, and the configuration. -/
structure Source where
  path : String
  format : Option DocumentFormat := none
  configuration : Option String := none

/-- What the program is asked to do. -/
inductive Request where
  | generate (source : Source) (output : String) (overrides : Overrides)
  | validate (source : Source) (definition data : String)
  | inspect (source : Source)

/-- Why the arguments are no request. -/
inductive Stop where
  | help
  | version
  | misuse
deriving DecidableEq

namespace Arguments

/-- An option of a command. -/
structure OptionKind where
  long : String
  short : Option Char := none
  required : Bool := false
  /-- The values that it takes; without it the option is a flag. -/
  admits : Option (String → Bool) := none

/-- A path is not empty. -/
def isPath (text : String) : Bool := !text.isEmpty

/-- The options that every command has. -/
def sourceOptions : List OptionKind := [
  { long := "input", short := some 'i', required := true, admits := some isPath },
  { long := "format", admits := some fun text => text == "json" || text == "yaml" },
  { long := "config", admits := some isPath }]

def optionsOf : String → Option (List OptionKind)
  | "generate" => some (sourceOptions ++
    { long := "output", short := some 'o', required := true, admits := some isPath }
      :: Overrides.flagNames.map fun long => { long })
  | "validate" => some (sourceOptions ++ [
    { long := "schema", short := some 's', required := true, admits := some fun _ => true },
    { long := "data", short := some 'd', required := true, admits := some isPath }])
  | "inspect" => some sourceOptions
  | _ => none

/-- The options that are given, each with its value, which is empty for a flag. -/
abbrev Given := Table String

def record (given : Given) (option : OptionKind) (value : String) : Except Stop Given :=
  if Table.has given option.long || !option.admits.all (· value) then .error .misuse
  else .ok (given ++ [(option.long, value)])

/-- An argument that looks like an option: a hyphen and more. -/
def looksLikeOption (argument : String) : Bool := Text.startsWith argument "-" && argument ≠ "-"

/-- The long name and the attached value of an argument without its hyphens. -/
def splitLong (text : List Char) : List Char × Option (List Char) :=
  let name := text.takeWhile (· ≠ '=')
  match text.drop name.length with
  | _ :: value => (name, some value)
  | [] => (name, none)

/-- The attached value behind a short name, with or without an equals sign. -/
def attached? : List Char → Option (List Char)
  | [] => none
  | '=' :: value => some value
  | value => some value

/-- The option that an argument names, with the attached value. -/
def named (options : List OptionKind) (argument : String) : Except Stop (OptionKind × Option (List Char)) :=
  match argument.toList with
  | '-' :: '-' :: text =>
    match splitLong text with
    | (['h', 'e', 'l', 'p'], none) => .error .help
    | (name, value) =>
      match options.find? (·.long == String.ofList name) with
      | some option => .ok (option, value)
      | none => .error .misuse
  | '-' :: 'h' :: _ => .error .help
  | '-' :: short :: rest =>
    match options.find? (·.short == some short) with
    | some option => .ok (option, attached? rest)
    | none => .error .misuse
  | _ => .error .misuse

def readOptions (options : List OptionKind) (given : Given) : List String → Except Stop Given
  | [] => .ok given
  | ["--"] => .ok given
  | argument :: rest => do
    match ← named options argument with
    | (option, some value) =>
      if option.admits.isNone then .error .misuse
      else readOptions options (← record given option (String.ofList value)) rest
    | (option, none) =>
      if option.admits.isNone then readOptions options (← record given option "") rest
      else match rest with
        | [] => .error .misuse
        | value :: rest =>
          if looksLikeOption value then .error .misuse
          else readOptions options (← record given option value) rest

def sourceOf (given : Given) : Source where
  path := (given.lookup "input").getD ""
  format := (given.lookup "format").bind DocumentFormat.ofLowered?
  configuration := given.lookup "config"

/-- The request that a command and its options make. -/
def requestOf (command : String) (given : Given) : Request :=
  let value (name : String) : String := (given.lookup name).getD ""
  match command with
  | "generate" => .generate (sourceOf given) (value "output") (.ofFlags (Table.has given))
  | "validate" => .validate (sourceOf given) (value "schema") (value "data")
  | _ => .inspect (sourceOf given)

/-- Reads what follows the name of a command. -/
def readCommand (command : String) (options : List OptionKind) (arguments : List String) : Except Stop Request := do
  let given ← readOptions options [] arguments
  if options.all fun option => !option.required || Table.has given option.long then
    return requestOf command given
  else .error .misuse

/-- What an argument before the command asks for. -/
def leadingOption (argument : String) : Stop :=
  match argument.toList with
  | '-' :: 'h' :: _ => .help
  | '-' :: 'V' :: _ => .version
  | _ => if argument = "--help" then .help else if argument = "--version" then .version else .misuse

/-- Reads the arguments. Without any, and for the command `help`, help is asked for. -/
def read : List String → Except Stop Request
  | [] => .error .help
  | ["--"] => .error .help
  | ["help"] => .error .help
  | ["help", command] => .error (if command = "help" || (optionsOf command).isSome then .help else .misuse)
  | command :: arguments =>
    match optionsOf command with
    | some options => readCommand command options arguments
    | none => .error (leadingOption command)

end Arguments

end Schemata
