import PhpLint.Files.Provider
import PhpLint.Files.Tree

/-! The files below a directory of a tree. -/
namespace PhpLint

/-- Files below a directory, perhaps only those below some paths. -/
structure DiskFiles where
  tree : FileTree
  root : String
  /-- Relative to the root; the whole root if there are none. -/
  paths : List String
  filter : PathFilter

namespace DiskFiles

/-- Directories that hold no files of a project, unless one starts inside them. -/
def skippedDirectories : List String :=
  [".git", ".hg", ".svn", ".xref", "node_modules"]

def exclude (d : DiskFiles) (patterns : List String) : DiskFiles × Except ProviderError Unit :=
  let (filter, result) := d.filter.add patterns
  ({ d with filter }, result)

/-- Where the search for files starts. -/
def starts (d : DiskFiles) : List String :=
  if d.paths.isEmpty then [d.root] else d.paths.map (Path.join d.root)

/-- The names of a path below the root. -/
def relative? (d : DiskFiles) (path : String) : Option String :=
  (Path.below? d.root path).map "/".intercalate

/-- Whether names below a path are listed, that is whether all directories on the way can be opened. -/
def isListed (start : String) (names : List String) : Bool :=
  !names.dropLast.any skippedDirectories.contains
    && FileTree.isShort (names.dropLast.foldl Path.join start)

/-- The files at or below a path, as paths from the root. -/
def filesFrom (d : DiskFiles) (start : String) : Except ProviderError (List String) :=
  match d.tree.stat start with
  | .error _ => .error (.notFound start)
  | .ok (l, _) =>
    let names := (d.tree.filesBelow l).map (·.1)
    .ok ((names.filter (isListed start)).filterMap fun ns => d.relative? (ns.foldl Path.join start))

/-- All files that are not excluded, in order. -/
def list (d : DiskFiles) : Except ProviderError (List String) := do
  let found ← d.starts.mapM d.filesFrom
  return sortedSet (found.flatten.filter (!d.filter.isExcluded ·))

def content (d : DiskFiles) (path : String) : Except ProviderError ByteArray :=
  (d.tree.read (Path.join d.root path)).mapError fun e =>
    match e with
    | .notFound => .notFound path
    | e => .disk path e.message

def provider (d : DiskFiles) : Provider :=
  ⟨d.list, d.content⟩

end DiskFiles

end PhpLint
