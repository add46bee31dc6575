import GraphRelay.Wire.Word

/-!
# Files

A tree of files and directories, and what looking, reading, writing and making directories do in it.
A path leads from the root or from the working directory, name by name; every name but the last has
to be that of a directory.
-/
namespace GraphRelay

inductive FileFault where
  | missing
  | alreadyExists
  | notDirectory
  | isDirectory
  | nameTooLong
  | notText
  /-- What a machine reports beyond these, in its own words. -/
  | other (reason : String)
  deriving DecidableEq, Repr

def FileFault.text : FileFault → String
  | missing => "No such file or directory (os error 2)"
  | alreadyExists => "File exists (os error 17)"
  | notDirectory => "Not a directory (os error 20)"
  | isDirectory => "Is a directory (os error 21)"
  | nameTooLong => "File name too long (os error 36)"
  | notText => "stream did not contain valid UTF-8"
  | other reason => reason

/-- What stands between the slashes. -/
def splitSlashes : List Char → List (List Char)
  | [] => [[]]
  | c :: rest =>
    if c = '/' then [] :: splitSlashes rest
    else
      match splitSlashes rest with
      | [] => [[c]]
      | name :: names => (c :: name) :: names

/-- The names that a path consists of. -/
def pathNames (path : String) : List String := (splitSlashes path.toList).map String.ofList

def isRooted (path : String) : Bool := path.toList.head? = some '/'

/-- The path of what has that name in a directory. -/
def pathBelow (directory name : String) : String :=
  (if directory.toList.getLast? = some '/' then directory else directory ++ "/") ++ name

/-- The paths above a path, the nearest first. Names that lead nowhere do not count. -/
def pathsAbove (path : String) : List String :=
  let names := (pathNames path).filter fun name => name ≠ "" && name ≠ "."
  let root := if isRooted path then "/" else ""
  (List.range (names.length - 1)).reverse.map fun i =>
    root ++ "/".intercalate (names.take (i + 1))

/-- The longest name in a directory, in bytes. -/
def longestName : Nat := 255

/-- The longest path, in bytes. -/
def longestPath : Nat := 4095

/-- A place in the tree: the names that lead there from the root. -/
abbrev FilePlace := List String

structure FileTree where
  files : List (FilePlace × Bytes)
  /-- Directories that were made; those that hold something exist as well. -/
  directories : List FilePlace
  workingDirectory : FilePlace
  deriving DecidableEq, Repr

namespace FileTree

def file? (t : FileTree) (p : FilePlace) : Option Bytes := t.files.lookup p

def isDirectory (t : FileTree) (p : FilePlace) : Bool :=
  p.isPrefixOf t.workingDirectory || t.directories.any (p.isPrefixOf ·)
    || t.files.any fun f => p.isPrefixOf f.1 && p.length < f.1.length

def isTaken (t : FileTree) (p : FilePlace) : Bool := (t.file? p).isSome || t.isDirectory p

/-- Goes on from a place by one name of a path. -/
def step (t : FileTree) (here : FilePlace) (name : String) : Except FileFault FilePlace :=
  if (t.file? here).isSome then .error .notDirectory
  else if !t.isDirectory here then .error .missing
  else if name = "" || name = "." then .ok here
  else if name = ".." then .ok here.dropLast
  else if longestName < name.utf8ByteSize then .error .nameTooLong
  else .ok (here ++ [name])

/-- The place where a path starts. -/
def start (t : FileTree) (path : String) : FilePlace :=
  if isRooted path then [] else t.workingDirectory

/-- Goes along some names of a path. -/
def follow (t : FileTree) (path : String) (names : List String) : Except FileFault FilePlace :=
  if path.isEmpty then .error .missing
  else if longestPath < path.utf8ByteSize then .error .nameTooLong
  else names.foldlM t.step (t.start path)

/-- The place to which a path leads; nothing needs to be there. -/
def resolve (t : FileTree) (path : String) : Except FileFault FilePlace :=
  t.follow path (pathNames path)

/-- Whether a file or directory is where a path leads. -/
def holds (t : FileTree) (path : String) : Bool := (t.resolve path).toOption.any t.isTaken

def holdsDirectory (t : FileTree) (path : String) : Bool :=
  (t.resolve path).toOption.any t.isDirectory

def read (t : FileTree) (path : String) : Except FileFault Bytes := do
  let p ← t.resolve path
  match t.file? p with
  | some content => .ok content
  | none => .error (if t.isDirectory p then .isDirectory else .missing)

/-- The tree with a file at a place, in the stead of one that was there. -/
def put (t : FileTree) (p : FilePlace) (content : Bytes) : FileTree :=
  { t with files := t.files.filter (·.1 ≠ p) ++ [(p, content)] }

def write (t : FileTree) (path : String) (content : Bytes) : Except FileFault FileTree := do
  let p ← t.resolve path
  if t.isDirectory p then .error .isDirectory else .ok (t.put p content)

/-- Makes a directory in one that exists. Slashes behind its name do not count. -/
def makeDirectory (t : FileTree) (path : String) : Except FileFault FileTree := do
  let names := ((pathNames path).reverse.dropWhile String.isEmpty).reverse
  let p ← t.follow path names
  if t.isTaken p then .error .alreadyExists
  else .ok { t with directories := p :: t.directories }

end FileTree

end GraphRelay
