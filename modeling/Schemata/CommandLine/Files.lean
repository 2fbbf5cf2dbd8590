import Schemata.Table
import Schemata.Text.Cut

namespace Schemata

/-- Why a file cannot be read or written. -/
inductive FileError where
  | notFound
  | alreadyExists
  | notDirectory
  | isDirectory
  /-- Any other reason, in words. -/
  | other (reason : String)
deriving DecidableEq

def FileError.message : FileError → String
  | .notFound => "No such file or directory (os error 2)"
  | .alreadyExists => "File exists (os error 17)"
  | .notDirectory => "Not a directory (os error 20)"
  | .isDirectory => "Is a directory (os error 21)"
  | .other reason => reason

/-- The operations on files. -/
structure FileAccess (m : Type → Type) where
  read : String → m (Except FileError String)
  /-- There is a file of that path. -/
  isFile : String → m Bool
  /-- Makes a directory and those around it; one that is there already is left as it is. -/
  makeDirectories : String → m (Except FileError Unit)
  /-- Writes a file anew. -/
  write : String → String → m (Except FileError Unit)

/-- The path of the directory that holds a path; nothing when that is the present directory. -/
def parentPath? (path : String) : Option String :=
  let trimmed := (path.toList.reverse.dropWhile (· == '/')).dropWhile (· ≠ '/')
  let parent := (trimmed.dropWhile (· == '/')).reverse
  if parent.isEmpty then (if trimmed.isEmpty then none else some "/") else some (String.ofList parent)

/-- A path from the root of a tree, name by name. -/
abbrev FilePath := List String

/-- Files and directories by their paths. A directory is there when it was made or when it holds something. -/
structure FileTree where
  files : List (FilePath × String) := []
  made : List FilePath := []

namespace FileTree

/-- The names of a written path. -/
def names (path : String) : List String := (Text.pieces (· == '/') path.toList).map String.ofList

def hasFile (tree : FileTree) (path : FilePath) : Bool := (tree.files.lookup path).isSome

def hasDirectory (tree : FileTree) (path : FilePath) : Bool :=
  path.isEmpty || tree.made.any (path.isPrefixOf ·) || tree.files.any fun (file, _) => path.isPrefixOf file && path ≠ file

/-- Follows names from a place; all but the last must lead through directories that are there. -/
def follow (tree : FileTree) (place : FilePath) : List String → Except FileError FilePath
  | [] => .ok place
  | name :: rest =>
    if tree.hasFile place then .error .notDirectory
    else if name.isEmpty || name = "." then follow tree place rest
    else if !tree.hasDirectory place then .error .notFound
    else if name = ".." then follow tree place.dropLast rest
    else follow tree (place ++ [name]) rest

/-- The place that a written path leads to. -/
def locate (tree : FileTree) (path : String) : Except FileError FilePath :=
  if path.isEmpty || Text.startsWith path "/" then .error .notFound else tree.follow [] (names path)

def read (tree : FileTree) (path : String) : Except FileError String := do
  let place ← tree.locate path
  match tree.files.lookup place with
  | some text => return text
  | none => .error (if tree.hasDirectory place then .isDirectory else .notFound)

/-- There is a file of that path. -/
def isFile (tree : FileTree) (path : String) : Bool := (tree.read path).isOk

/-- Makes a directory and those around it. -/
def makeDirectories (tree : FileTree) (path : String) : Except FileError FileTree :=
  match tree.locate path with
  | .ok place =>
    if tree.hasDirectory place then .ok tree
    else if tree.hasFile place then .error .alreadyExists
    else .ok { tree with made := place :: tree.made }
  | .error .notFound =>
    .ok { tree with made := (names path).filter (fun name => !name.isEmpty && name ≠ ".") :: tree.made }
  | .error e => .error e

/-- The files with one of them written anew, in its place if it was there. -/
def putFile (place : FilePath) (text : String) : List (FilePath × String) → List (FilePath × String)
  | [] => [(place, text)]
  | (other, old) :: rest => if other = place then (place, text) :: rest else (other, old) :: putFile place text rest

/-- Writes a file anew. -/
def write (tree : FileTree) (path text : String) : Except FileError FileTree := do
  let place ← tree.locate path
  if tree.hasDirectory place || path.toList.getLast? = some '/' then .error .isDirectory
  else return { tree with files := putFile place text tree.files }

/-- The tree that holds the given files and nothing else. -/
def ofFiles (files : Table String) : FileTree where
  files := files.foldl (fun acc (path, text) => putFile ((names path).filter (!·.isEmpty)) text acc) []

/-- Does something to the tree, which stays as it is when that fails. -/
def attempt (change : FileTree → Except FileError FileTree) : StateM FileTree (Except FileError Unit) := do
  match change (← get) with
  | .ok tree =>
    set tree
    return .ok ()
  | .error e => return .error e

/-- The operations on a tree of files. -/
def access : FileAccess (StateM FileTree) where
  read path := return (← get).read path
  isFile path := return (← get).isFile path
  makeDirectories path := attempt (·.makeDirectories path)
  write path text := attempt (·.write path text)

end FileTree

end Schemata
