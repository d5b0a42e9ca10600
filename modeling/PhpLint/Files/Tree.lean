import PhpLint.Files.Error
import PhpLint.Files.Path

/-!
A tree of files and directories, with the operations of a file system. Paths are followed name by
name, and every name on the way has to be a directory.
-/
namespace PhpLint

/-- The names that lead from the top of the tree to a place. -/
abbrev Location := List String

inductive Node where
  | directory
  /-- A file and the time of its last change. -/
  | file (content : ByteArray) (modified : Nat)

structure FileTree where
  /-- What is where; the top itself is always a directory. -/
  nodes : List (Location × Node)
  /-- Where relative paths start. -/
  workingDirectory : Location
  /-- The time, in seconds. -/
  now : Nat

namespace FileTree

/-- A tree of nothing but a directory and those around it. -/
def ofDirectory (directory : Location) (now : Nat) : FileTree where
  nodes := (List.range directory.length).map fun i => (directory.take (i + 1), .directory)
  workingDirectory := directory
  now

/-! ### Places -/

def node? (t : FileTree) (l : Location) : Option Node :=
  if l.isEmpty then some .directory else t.nodes.lookup l

def put (t : FileTree) (l : Location) (node : Node) : FileTree :=
  { t with nodes := (l, node) :: t.nodes.filter (·.1 != l) }

def drop (t : FileTree) (l : Location) : FileTree :=
  { t with nodes := t.nodes.filter (·.1 != l) }

/-- The longest name that a directory can hold, in bytes. -/
def longestName : Nat :=
  255

/-- The place to which names lead from a place. Only the last need not exist. -/
def follow (t : FileTree) (l : Location) : List String → Except DiskError Location
  | [] => .ok l
  | name :: names =>
    match t.node? l with
    | none => .error .notFound
    | some (.file _ _) => .error .notDirectory
    | some .directory =>
      if Path.isIdle name then t.follow l names
      else if name == ".." then t.follow l.dropLast names
      else if longestName < name.utf8ByteSize then .error .nameTooLong
      else t.follow (l ++ [name]) names

/-- The longest path that can be followed, in bytes as it is written. -/
def longestPath : Nat :=
  4095

/-- Whether a path is short enough to be followed. -/
def isShort (path : String) : Bool :=
  path.utf8ByteSize ≤ longestPath

/-- What is wrong with a path wherever it leads. -/
def checkPath (path : String) : Except DiskError Unit :=
  if path.toList.contains '\x00' then .error .invalidName
  else if path.isEmpty then .error .notFound
  else if !isShort path then .error .nameTooLong
  else .ok ()

/-- The place that a path names. -/
def locate (t : FileTree) (path : String) : Except DiskError Location := do
  checkPath path
  t.follow (if Path.isAbsolute path then [] else t.workingDirectory) (Path.pieces path)

/-- What is at a path. -/
def stat (t : FileTree) (path : String) : Except DiskError (Location × Node) := do
  let l ← t.locate path
  match t.node? l with
  | some node => .ok (l, node)
  | none => .error .notFound

def exists? (t : FileTree) (path : String) : Bool :=
  (t.stat path).isOk

def isDirectory (t : FileTree) (path : String) : Bool :=
  match t.stat path with
  | .ok (_, .directory) => true
  | _ => false

def isFile (t : FileTree) (path : String) : Bool :=
  match t.stat path with
  | .ok (_, .file _ _) => true
  | _ => false

/-! ### Files -/

def read (t : FileTree) (path : String) : Except DiskError ByteArray := do
  match ← t.stat path with
  | (_, .file content _) => .ok content
  | (_, .directory) => .error .isDirectory

/-- Writes a file whole, in a directory that exists. -/
def write (t : FileTree) (path : String) (content : ByteArray) : Except DiskError FileTree := do
  let l ← t.locate path
  match t.node? l with
  | some .directory => .error .isDirectory
  | _ => .ok (t.put l (.file content t.now))

/-- Makes an empty file where nothing is. -/
def create (t : FileTree) (path : String) : Except DiskError FileTree := do
  let l ← t.locate path
  match t.node? l with
  | some _ => .error .alreadyExists
  | none => .ok (t.put l (.file .empty t.now))

def remove (t : FileTree) (path : String) : Except DiskError FileTree := do
  match ← t.stat path with
  | (l, .file _ _) => .ok (t.drop l)
  | (_, .directory) => .error .isDirectory

/-! ### Directories -/

/-- A path without the separators behind it. -/
def trimSeparators (path : String) : String :=
  let s := (path.toList.reverse.dropWhile (· == '/')).reverse
  if s.isEmpty then path else String.ofList s

def makeDirectory (t : FileTree) (path : String) : Except DiskError FileTree := do
  checkPath path
  let l ← t.locate (trimSeparators path)
  match t.node? l with
  | some _ => .error .alreadyExists
  | none => .ok (t.put l .directory)

/-- Makes a directory unless it is there. -/
def ensureDirectory (t : FileTree) (path : String) : Except DiskError Unit × FileTree :=
  match t.makeDirectory path with
  | .ok t => (.ok (), t)
  | .error e => if t.isDirectory path then (.ok (), t) else (.error e, t)

/-- Makes the first of some directories, each of which is the parent of the one before it. -/
def ensureFirst : List String → FileTree → Except DiskError Unit × FileTree
  | [], t => (.error .notFound, t)
  | path :: parents, t =>
    if path.isEmpty then (.ok (), t)
    else
      match t.ensureDirectory path with
      | (.error .notFound, t) =>
        match ensureFirst parents t with
        | (.ok (), t) => t.ensureDirectory path
        | failed => failed
      | result => result

/-- Makes a directory with all that lead to it. -/
def ensureDirectories (t : FileTree) (path : String) : Except DiskError Unit × FileTree :=
  ensureFirst (Path.ancestors path) t

/-- The names that lead from a place to each file below it. -/
def filesBelow (t : FileTree) (l : Location) : List (List String × ByteArray) :=
  t.nodes.filterMap fun (location, node) =>
    match node with
    | .directory => none
    | .file content _ =>
      if l.isPrefixOf location then some (location.drop l.length, content) else none

end FileTree

end PhpLint
