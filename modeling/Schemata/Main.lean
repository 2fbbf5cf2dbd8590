import Schemata.CommandLine.Command
import Schemata.Draft7.Library

namespace Schemata

/-- The cause of a system error. -/
def FileError.ofSystem : IO.Error → FileError
  | .noFileOrDirectory .. => .notFound
  | .alreadyExists .. => .alreadyExists
  | e => .other (toString e)

/-- Does something with files and keeps its error. -/
def FileError.catching {α : Type} (action : IO α) : IO (Except FileError α) := do
  try return .ok (← action)
  catch e => return .error (FileError.ofSystem e)

/-- The operations on the files of the system. -/
def systemFiles : FileAccess IO where
  read path := FileError.catching (IO.FS.readFile path)
  isFile path := return (← FileError.catching (IO.FS.readFile path)).isOk
  makeDirectories path := FileError.catching (IO.FS.createDirAll path)
  write path text := FileError.catching (IO.FS.writeFile path text)

/-- How the program is used. -/
def usageText : String := String.join [
  "Usage: schemagen <COMMAND>\n\n",
  "Commands:\n",
  "  generate --input <FILE> --output <FILE>\n",
  "  validate --input <FILE> --schema <NAME> --data <FILE>\n",
  "  inspect --input <FILE>\n"]

end Schemata

open Schemata in
def main (arguments : List String) : IO UInt32 := do
  match Arguments.read arguments with
  | .error .help =>
    IO.print usageText
    return 0
  | .error .version =>
    IO.print Command.versionText
    return 0
  | .error .misuse =>
    IO.eprint usageText
    return 2
  | .ok request =>
    let result ← Command.run systemFiles Draft7.library request
    match result with
    | .ok done => IO.print done.output
    | .error e => IO.eprintln e.message
    return Command.exitCode result
