import PhpLint.Files.Error
import PhpLint.Glob.Match
import PhpLint.Glob.Parse

/-! Paths that are left out: those below some directories, and those that match some patterns. -/
namespace PhpLint

structure PathFilter where
  /-- Files and directories that are left out with everything below them. -/
  directories : List String
  /-- Every pattern that was ever added. -/
  patterns : List String
  /-- The patterns in force. -/
  globs : List (List Glob.Piece)
  deriving Repr, Inhabited

namespace PathFilter

def empty : PathFilter :=
  ⟨[], [], []⟩

/-- A pattern in its usual form: without blanks around it, with forward slashes. -/
def normalize (raw : String) : String :=
  String.ofList ((Text.trim raw).toList.map fun c => if c == '\\' then '/' else c)

/-- Whether a pattern is more than a path. -/
def isGlob (pattern : String) : Bool :=
  pattern.toList.any ['*', '?', '[', '\x7b'].contains

/-- The text without the current directory in front. -/
def dropHere : List Char → List Char
  | '.' :: '/' :: r => dropHere r
  | s => s

/-- A path without the current directory in front and without separators behind. -/
def directoryOf (pattern : String) : String :=
  String.ofList ((dropHere pattern.toList).reverse.dropWhile (· == '/')).reverse

/-- Takes note of a pattern. -/
def note (f : PathFilter) (raw : String) : PathFilter :=
  let pattern := normalize raw
  if pattern.isEmpty then f
  else if isGlob pattern then { f with patterns := f.patterns ++ [pattern] }
  else { f with directories := f.directories ++ [directoryOf pattern] }

def compile (pattern : String) : Except ProviderError (List Glob.Piece) :=
  (Glob.parse pattern).mapError fun e =>
    .invalidPattern pattern s!"error parsing glob '{pattern}': {e.message}"

/-- All patterns together. -/
def compileAll (patterns : List String) : Except ProviderError (List (List Glob.Piece)) := do
  let globs ← patterns.mapM compile
  (Glob.checkDepth globs).mapError fun e => .invalidPattern (", ".intercalate patterns) e.message
  return globs

/-- Adds patterns. A bad pattern stays noted, and no pattern added since comes into force. -/
def add (f : PathFilter) (patterns : List String) : PathFilter × Except ProviderError Unit :=
  let f := patterns.foldl note f
  match compileAll f.patterns with
  | .ok globs => ({ f with globs }, .ok ())
  | .error e => (f, .error e)

/-- Whether a path is a directory or lies below it. -/
def isBelow (directory path : String) : Bool :=
  path == directory || (directory.toList ++ ['/']).isPrefixOf path.toList

def isExcluded (f : PathFilter) (path : String) : Bool :=
  f.directories.any (isBelow · path) || f.globs.any (Glob.isMatch · path)

end PathFilter

end PhpLint
