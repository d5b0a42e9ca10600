import PhpLint.Config.Settings
import PhpLint.Files.Tree
import PhpLint.Toml.Reader

/-!
The configuration of a run. Later sources override earlier ones: defaults, the project file, the
environment, the definitions on the command line.
-/
namespace PhpLint

/-- Where a configuration may come from. -/
structure ConfigSources where
  /-- A project file named on the command line. -/
  configPath : Option String
  /-- One named in the environment. -/
  envConfigPath : Option String
  envReportLevel : Option String
  /-- Keys and values in the order of the command line. -/
  defines : List (String × String)
  /-- Where the search for a project file starts. -/
  startDirectory : String
  deriving DecidableEq, Repr

structure LoadedConfig where
  settings : Settings
  /-- The project file, if there is one. -/
  file : Option String
  /-- Where relative paths in the settings start. -/
  root : String
  deriving DecidableEq, Repr

namespace LoadedConfig

def resolve (c : LoadedConfig) (path : String) : String :=
  Path.join c.root path

def dataDirectory (c : LoadedConfig) : String :=
  c.resolve c.settings.dataDirectory

def gitDirectory (c : LoadedConfig) : String :=
  match c.settings.gitDirectory with
  | some directory => c.resolve directory
  | none => c.root

end LoadedConfig

namespace ConfigSources

def fileName : String :=
  "xref.toml"

/-- In place of a project file: no file at all. -/
def noFile : String :=
  "default"

/-- The project file of a directory. -/
def fileOf (directory : String) : String :=
  Path.join (Path.join directory configDirectory) fileName

/-- The closest project file at or above a directory. -/
def findFile? (t : FileTree) (start : String) : Option String :=
  ((Path.ancestors start).map fileOf).find? t.isFile

/-- The root of the project that a file describes. -/
def rootOf (file : String) : String :=
  let directory := (Path.parent? file).getD "."
  if Path.fileName? directory == some configDirectory then
    (Path.parent? directory).getD directory
  else directory

/-- The project file to read, if any. One that is asked for has to be there. -/
def chooseFile (s : ConfigSources) (t : FileTree) : Except ConfigError (Option String) :=
  match s.configPath.or s.envConfigPath with
  | none => .ok (findFile? t s.startDirectory)
  | some name =>
    let path := Path.join s.startDirectory name
    if name == noFile then .ok none
    else if t.isFile path then .ok (some path)
    else .error (.unreadable path "no such file")

def readFile (t : FileTree) (path : String) : Except ConfigError Toml.Table := do
  let content ← (t.read path).mapError fun e => .unreadable path e.message
  match String.fromUTF8? content with
  | none => .error (.unreadable path "stream did not contain valid UTF-8")
  | some text =>
    match Toml.parse? text with
    | some table => .ok table
    | none => .error (.unreadable path "invalid TOML")

/-- The settings with those of a project file. -/
def applyFile (t : FileTree) (file : Option String) (settings : Settings) :
    Except ConfigError Settings :=
  match file with
  | none => .ok settings
  | some path => do
    match settings.apply (← readFile t path) with
    | (settings, none) => .ok settings
    | (_, some e) => .error e

/-- The configuration from all sources. Every value has to be valid, also one that is overridden. -/
def load (s : ConfigSources) (t : FileTree) : Except ConfigError LoadedConfig := do
  let file ← s.chooseFile t
  let settings ← applyFile t file .default
  let settings ← match s.envReportLevel with
    | some level => settings.setText SettingKey.reportLevel.text level
    | none => .ok settings
  let settings ← s.defines.foldlM (fun settings (key, value) => settings.setText key value) settings
  return ⟨settings, file, (file.map rootOf).getD s.startDirectory⟩

end ConfigSources

end PhpLint
