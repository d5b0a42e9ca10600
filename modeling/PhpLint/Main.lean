import PhpLint.Cli.Program

/-!
The command line. Files are read into a tree, the program runs on the tree, and what it changed
there is written back.
-/
namespace PhpLint.Cli

/-- Large directories without sources, read only if they are asked for. -/
def unreadDirectories : List String :=
  [".git", ".hg", ".svn", "node_modules"]

def textOf (l : Location) : String :=
  "/" ++ "/".intercalate l

/-- The names that lead from the top to a path, which two points shorten. -/
def placeOf (directory : Location) (path : String) : Location :=
  let start := if Path.isAbsolute path then [] else directory
  (Path.components path).foldl (fun l name =>
    if name == ".." then l.dropLast else if name == "." then l else l ++ [name]) start

/-- Adds what is on disk at a place, and below it if that is wanted. -/
partial def readPlace (deep : Bool) (l : Location) (t : FileTree) : IO FileTree := do
  let .ok found ← (IO.FS.realPath (textOf l)).toBaseIO | return t
  let .ok status ← found.metadata.toBaseIO | return t
  match status.type with
  | .file =>
    let .ok content ← (IO.FS.readBinFile found).toBaseIO | return t
    return t.put l (.file content status.modified.sec.toNat)
  | .dir =>
    let mut t := t.put l .directory
    if deep then
      let .ok entries ← found.readDir.toBaseIO | return t
      for entry in entries do
        unless unreadDirectories.contains entry.fileName do
          t ← readPlace deep (l ++ [entry.fileName]) t
    return t
  | _ => return t

/-- Adds a place, perhaps with all below it, and the directories that lead there. -/
def readFrom (deep : Bool) (t : FileTree) (l : Location) : IO FileTree := do
  let above ← (List.range' 1 (l.length - 1)).foldlM (fun t n => readPlace false (l.take n) t) t
  readPlace deep l above

/-- Whether reading a place also reads another one. -/
def covers (l other : Location) : Bool :=
  l.isPrefixOf other && !(other.drop l.length).any unreadDirectories.contains

/-- The places that no other one covers. -/
def outermost (places : List Location) : List Location :=
  places.eraseDups.filter fun l => !places.any fun other => other != l && covers other l

/-- The project files at or above a place. -/
def projectFiles (l : Location) : List Location :=
  (List.range (l.length + 1)).map fun n => l.take n ++ [configDirectory, ConfigSources.fileName]

/-- The paths that a command line and its configuration name. -/
def pathsOf (env : Environment) (arguments : List String) (t : FileTree) : List String :=
  let configured := do
    let (options, _) ← (parseArguments arguments).toOption
    let c ← ((sourcesOf env options t).load t).toOption
    return c.root :: c.dataDirectory :: c.settings.sourceDirectories.map c.resolve
  arguments ++ configured.getD []

/-- All that a run may look at. -/
def readTree (env : Environment) (arguments : List String) (t : FileTree) : IO FileTree := do
  let directory := t.workingDirectory
  let configs := (env.config.toList ++ arguments).map (placeOf directory)
  let t ← (projectFiles directory ++ configs).foldlM (readFrom false) t
  let places := (pathsOf env arguments t).map (placeOf directory)
  (outermost (directory :: places)).foldlM (readFrom true) t

/-- Writes back what a run changed. -/
def writeChanges (old new : FileTree) : IO Unit := do
  for (l, node) in new.nodes.reverse do
    match node, old.node? l with
    | .directory, none => IO.FS.createDirAll (textOf l)
    | .file content _, some (.file before _) =>
      if content != before then IO.FS.writeBinFile (textOf l) content
    | .file content _, _ =>
      IO.FS.createDirAll (textOf l.dropLast)
      IO.FS.writeBinFile (textOf l) content
    | _, _ => pure ()
  for (l, node) in old.nodes do
    if node matches .file _ _ then
      if (new.node? l).isNone then IO.FS.removeFile (textOf l)

/-- The time, as files show it. -/
def currentTime : IO Nat :=
  IO.FS.withTempFile fun _ path => return (← path.metadata).modified.sec.toNat

end PhpLint.Cli

open PhpLint PhpLint.Cli in
def main (arguments : List String) : IO UInt32 := do
  let stdout ← IO.getStdout
  let env : Environment :=
    ⟨← IO.getEnv "XREF_CONFIG", ← IO.getEnv "XREF_REPORT_LEVEL", ← stdout.isTty⟩
  let directory := placeOf [] (← IO.currentDir).toString
  let tree ← readTree env arguments (.ofDirectory directory (← currentTime))
  let (outcome, changed) := run env arguments tree
  writeChanges tree changed
  IO.print outcome.output
  IO.eprint outcome.errors
  return outcome.exitCode.toUInt32
