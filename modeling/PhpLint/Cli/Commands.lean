import PhpLint.Cli.Failure
import PhpLint.Config.Load
import PhpLint.Document.Output
import PhpLint.Engine.Basic
import PhpLint.Files.Disk
import PhpLint.Plugin.Bundled
import PhpLint.Storage.Disk
import PhpLint.Storage.Memory

/-! The commands: each changes the tree of files and answers what it did, or why it failed. -/
namespace PhpLint

/-- What a lint run looks at. -/
inductive LintTarget where
  /-- Files on disk; without paths those that the configuration names. -/
  | paths (paths : List String)
  /-- What is new between two revisions, or one revision as a whole. -/
  | revisions (spec : RevisionSpec)
  deriving DecidableEq, Repr

/-- A report after filtering, and what it took. -/
structure LintOutcome where
  report : Report
  stats : RunStats
  deriving Repr

structure InitOutcome where
  configFile : String
  /-- Whether the file was not there before. -/
  created : Bool
  stats : RunStats
  deriving Repr

structure DocOutcome where
  directory : String
  written : List String
  problems : Report
  deriving Repr

namespace Settings

/-- The registry of all that comes with the library. -/
def registry (s : Settings) : Except Failure Registry :=
  match Registry.empty.addBundled s.ignoredClasses with
  | (r, none) => .ok r
  | (_, some e) => .error (.configuration e)

end Settings

namespace LoadedConfig

/-- The paths of a command line, else those of the configuration. -/
def lintPaths (c : LoadedConfig) (paths : List String) : List String :=
  if paths.isEmpty then c.settings.sourceDirectories.map c.resolve else paths

/-- The files below some paths, less those that the configuration excludes. -/
def files (c : LoadedConfig) (paths : List String) (t : FileTree) : Except Failure DiskFiles :=
  match DiskFiles.exclude ⟨t, c.root, c.lintPaths paths, .empty⟩ c.settings.excludedPaths with
  | (files, .ok ()) => .ok files
  | (_, .error e) => .error (.ofProvider e)

/-- A run with the storage of the configuration, or without any. -/
def run (c : LoadedConfig) (engine : Engine) (useCache : Bool) (files : DiskFiles) (t : FileTree) :
    Except Failure Run × FileTree :=
  let (result, t) := match if useCache then c.settings.storage else .none with
    | .file =>
      let storage : FileStorage := ⟨c.dataDirectory, FileStorage.defaultLockTimeout⟩
      engine.report storage.storage files.provider t
    | .memory => ((engine.report MemoryStorage.storage files.provider .empty).1, t)
    | .none => ((engine.report Storage.none files.provider ()).1, t)
  (result.mapError .ofProvider, t)

/-- Lints files. Revisions need source control, which there is none of here. -/
def lint (c : LoadedConfig) (target : LintTarget) (useCache : Bool) (t : FileTree) :
    Except Failure LintOutcome × FileTree :=
  match c.settings.registry, target with
  | .error e, _ => (.error e, t)
  | .ok _, .revisions (.single r) | .ok _, .revisions (.range r _) =>
    (.error (.ofSourceControl (.unsupported r.text "reading files")), t)
  | .ok registry, .paths paths =>
    match c.files paths t with
    | .error e => (.error e, t)
    | .ok files =>
      let mode : LintMode := if c.settings.projectCheck then .project else .simple
      let (result, t) := c.run ⟨registry, mode, false⟩ useCache files t
      let filter : ReportFilter := ⟨c.settings.reportLevel, c.settings.ignoredErrors⟩
      (result.map fun run => ⟨run.report.sortedAndFiltered filter, run.stats⟩, t)

/-- Writes the documentation, below the data directory unless another one is given. -/
def document (c : LoadedConfig) (directory : Option String) (t : FileTree) :
    Except Failure DocOutcome × FileTree :=
  let directory := directory.getD (Path.join c.dataDirectory "doc")
  let output := do
    let registry ← c.settings.registry
    let files ← c.files [] t
    (DocumentationOutput.generate registry files.provider).mapError .ofProvider
  match output with
  | .error e => (.error e, t)
  | .ok output =>
    match output.write directory "json" t with
    | (.error e, t) => (.error (.internal s!"cannot write documentation: {e.message}"), t)
    | (.ok written, t) =>
      (.ok ⟨directory, written, output.problems.foldl Report.add []⟩, t)

end LoadedConfig

namespace ConfigSources

/-- The configuration, or why the command ends here. -/
def config (s : ConfigSources) (t : FileTree) : Except Failure LoadedConfig :=
  (s.load t).mapError .configuration

/-- Writes a new project file for a directory. -/
def createFile (directory : String) (t : FileTree) : Except Failure Unit × FileTree :=
  let path := fileOf directory
  let name := (Path.fileName? directory).getD "project"
  let failed (e : DiskError) : Except Failure Unit :=
    .error (.internal s!"cannot write {path}: {e.message}")
  match t.ensureDirectories (Path.join directory configDirectory) with
  | (.error e, t) => (failed e, t)
  | (.ok (), t) =>
    match t.write path (defaultConfigText name).toUTF8 with
    | .error e => (failed e, t)
    | .ok t => (.ok (), t)

/-- Fills the cache with the results of all files. -/
def warmCache (s : ConfigSources) (t : FileTree) : Except Failure RunStats × FileTree :=
  let prepared := do
    let config ← s.config t
    let registry ← config.settings.registry
    return (config, registry, ← config.files [] t)
  match prepared with
  | .error e => (.error e, t)
  | .ok (config, registry, files) =>
    let (result, t) := config.run ⟨registry, .project, true⟩ true files t
    (result.map (·.stats), t)

/-- Creates the project file of a directory unless there is one, and fills the cache. -/
def init (s : ConfigSources) (directory : String) (t : FileTree) :
    Except Failure InitOutcome × FileTree :=
  let path := fileOf directory
  let created := !t.exists? path
  match if created then createFile directory t else (.ok (), t) with
  | (.error e, t) => (.error e, t)
  | (.ok (), t) =>
    let (result, t) := s.warmCache t
    (result.map fun stats => ⟨path, created, stats⟩, t)

end ConfigSources

end PhpLint
