import PhpLint.Config.Error
import PhpLint.Defect.Severity
import PhpLint.Rule.MissingClass
import PhpLint.Toml.Writer

/-!
Settings. Each has a key, and every source of settings writes them through the same function. A
text is accepted for every key, so that a key has the same meaning in a file and on the command
line.
-/
namespace PhpLint

/-- Where results are kept between runs. -/
inductive StorageKind where
  | file
  | memory
  | none
  deriving DecidableEq, Repr

/-- Whether text output is coloured. -/
inductive ColorMode where
  /-- If the output is a terminal. -/
  | auto
  | on
  | off
  deriving DecidableEq, Repr

def ColorMode.enabled (mode : ColorMode) (isTerminal : Bool) : Bool :=
  match mode with
  | .auto => isTerminal
  | .on => true
  | .off => false

inductive SourceControlKind where
  | git
  deriving DecidableEq, Repr

/-- What can be set. -/
inductive SettingKey where
  | projectName
  | sourceDirectories
  | excludedPaths
  | dataDirectory
  | projectCheck
  | storage
  | reportLevel
  | ignoredErrors
  | ignoredClasses
  | color
  | gitDirectory
  | gitTimeout
  | sourceControl
  deriving DecidableEq, Repr

namespace SettingKey

def all : List SettingKey :=
  [.projectName, .sourceDirectories, .excludedPaths, .dataDirectory, .projectCheck, .storage,
    .reportLevel, .ignoredErrors, .ignoredClasses, .color, .gitDirectory, .gitTimeout,
    .sourceControl]

/-- A section and a name in it. -/
def text : SettingKey → String
  | .projectName => "project.name"
  | .sourceDirectories => "project.source-code-dir"
  | .excludedPaths => "project.exclude-path"
  | .dataDirectory => "xref.data-dir"
  | .projectCheck => "xref.project-check"
  | .storage => "xref.storage-manager"
  | .reportLevel => "lint.report-level"
  | .ignoredErrors => "lint.ignore-error"
  | .ignoredClasses => "lint.ignore-missing-class"
  | .color => "lint.color"
  | .gitDirectory => "git.repository-dir"
  | .gitTimeout => "git.command-timeout-secs"
  | .sourceControl => "ci.source-code-manager"

def ofText? (text : String) : Option SettingKey :=
  all.find? (·.text == text)

end SettingKey

structure Settings where
  projectName : Option String
  /-- What is linted if nothing else is asked for. -/
  sourceDirectories : List String
  excludedPaths : List String
  dataDirectory : String
  projectCheck : Bool
  storage : StorageKind
  reportLevel : Severity
  ignoredErrors : List String
  /-- Classes that are never missing. -/
  ignoredClasses : List String
  color : ColorMode
  gitDirectory : Option String
  /-- In seconds. -/
  gitTimeout : Nat
  sourceControl : SourceControlKind
  deriving DecidableEq, Repr

/-- The directory of the project file and, unless set otherwise, of all data. -/
def configDirectory : String :=
  ".xref"

def Settings.default : Settings where
  projectName := none
  sourceDirectories := []
  excludedPaths := []
  dataDirectory := configDirectory
  projectCheck := true
  storage := .file
  reportLevel := .warning
  ignoredErrors := []
  ignoredClasses := Rule.MissingClass.defaultIgnored
  color := .auto
  gitDirectory := none
  gitTimeout := 30
  sourceControl := .git

/-! ### Meaning of values -/

namespace Toml.Value

def asText? : Value → Option String
  | .string s => some s
  | .integer n => some (toString n)
  | _ => none

def asBool? : Value → Option Bool
  | .boolean b => some b
  | .integer n => some (n != 0)
  | .string s =>
    match Text.fold (Text.trim s) with
    | "true" | "on" | "yes" | "1" => some true
    | "false" | "off" | "no" | "0" => some false
    | _ => none
  | _ => none

/-- A number that fits into 64 bits. -/
def asNat? : Value → Option Nat
  | .integer n => n.toNat?
  | .string s => (Severity.number? (Text.trim s).toList).filter (· < 0x10000000000000000)
  | _ => none

/-- The parts of a text between commas, without blanks around them and without empty ones. -/
def commaParts (s : String) : List String :=
  let parts := (Text.splitAt ',' s.toList).map (Text.trimBy Text.isWhiteSpace)
  (parts.filter (!·.isEmpty)).map String.ofList

/-- A list of texts, or one text with commas. -/
def asList? : Value → Option (List String)
  | .array elements => elements.mapM fun e =>
    match e with
    | .string s => some s
    | _ => none
  | .string s => some (commaParts s)
  | _ => none

end Toml.Value

def StorageKind.ofText? (s : String) : Option StorageKind :=
  match Text.fold (Text.trim s) with
  | "file" => some .file
  | "memory" => some .memory
  | "none" | "off" => some .none
  | _ => Option.none

def ColorMode.ofText? (s : String) : Option ColorMode :=
  match Text.fold (Text.trim s) with
  | "auto" => some .auto
  | "on" | "true" | "yes" | "1" => some .on
  | "off" | "false" | "no" | "0" => some .off
  | _ => none

def SourceControlKind.ofText? (s : String) : Option SourceControlKind :=
  if Text.fold (Text.trim s) == "git" then some .git else none

/-! ### Writing settings -/

namespace Settings

/-- A value that does not suit its key. -/
def invalid (key : String) (v : Toml.Value) (reason : String) : ConfigError :=
  .invalidValue key v.display reason

/-- What a value means, or the reason why it means nothing. -/
def expect {α : Type} (key : SettingKey) (v : Toml.Value) (reason : String) (meaning : Option α) :
    Except ConfigError α :=
  match meaning with
  | some a => .ok a
  | none => .error (invalid key.text v reason)

/-- One of some words. -/
def expectWord {α : Type} (key : SettingKey) (v : Toml.Value) (reason : String)
    (ofText? : String → Option α) : Except ConfigError α :=
  match v.asText? with
  | some s => expect key v reason (ofText? s)
  | none => .error (invalid key.text v "expected a string")

/-- A level by its name or number. -/
def expectLevel (key : SettingKey) (v : Toml.Value) : Except ConfigError Severity := do
  let text ← expect key v "expected a level name or number" v.asText?
  match Severity.parse? text with
  | some level => .ok level
  | none => .error (.unknownReportLevel text)

/-- Sets what belongs to a key. -/
def setKey (s : Settings) (key : SettingKey) (v : Toml.Value) : Except ConfigError Settings :=
  match key with
  | .projectName => do
    return { s with projectName := some (← expect key v "expected a string" v.asText?) }
  | .sourceDirectories => do
    return { s with sourceDirectories := ← expect key v "expected a list of paths" v.asList? }
  | .excludedPaths => do
    return { s with excludedPaths := ← expect key v "expected a list of paths" v.asList? }
  | .dataDirectory => do
    return { s with dataDirectory := ← expect key v "expected a path" v.asText? }
  | .projectCheck => do
    return { s with projectCheck := ← expect key v "expected true or false" v.asBool? }
  | .storage => do
    let reason := "expected 'file', 'memory' or 'none'"
    return { s with storage := ← expectWord key v reason StorageKind.ofText? }
  | .reportLevel => do
    return { s with reportLevel := ← expectLevel key v }
  | .ignoredErrors => do
    return { s with ignoredErrors := ← expect key v "expected a list of error codes" v.asList? }
  | .ignoredClasses => do
    return { s with ignoredClasses := ← expect key v "expected a list of class names" v.asList? }
  | .color => do
    return { s with color := ← expectWord key v "expected 'auto', 'on' or 'off'" ColorMode.ofText? }
  | .gitDirectory => do
    return { s with gitDirectory := some (← expect key v "expected a path" v.asText?) }
  | .gitTimeout => do
    let reason := "expected a positive number of seconds"
    return { s with gitTimeout := ← expect key v reason (v.asNat?.filter (0 < ·)) }
  | .sourceControl => do
    let reason := "only 'git' is supported"
    return { s with sourceControl := ← expectWord key v reason SourceControlKind.ofText? }

/-- Sets what belongs to the text of a key. -/
def set (s : Settings) (key : String) (v : Toml.Value) : Except ConfigError Settings :=
  match SettingKey.ofText? key with
  | some k => s.setKey k v
  | none => .error (invalid key v "unknown config var")

def setText (s : Settings) (key value : String) : Except ConfigError Settings :=
  s.set key (.string value)

/-- Sets several keys; ends at the first that cannot be set, with what has been set before it. -/
def setAll (s : Settings) : List (String × Toml.Value) → Settings × Option ConfigError
  | [] => (s, none)
  | (key, v) :: rest =>
    match s.set key v with
    | .ok s => s.setAll rest
    | .error e => (s, some e)

/-- Sets everything in a file, section by section in the order of their names. -/
def apply (s : Settings) : Toml.Table → Settings × Option ConfigError
  | [] => (s, none)
  | (name, .table entries) :: sections =>
    match s.setAll (entries.map fun (key, v) => (name ++ "." ++ key, v)) with
    | (s, none) => s.apply sections
    | failed => failed
  | (name, v) :: _ => (s, some (invalid name v "expected a [section]"))

end Settings

/-! ### Texts of settings -/

/-- The key and value of an argument that defines a setting. -/
def parseDefine (argument : String) : Except String (String × String) :=
  let s := argument.toList
  let key := s.takeWhile (· != '=')
  if key.length == s.length then
    .error s!"invalid define '{argument}', expected 'key=value'"
  else
    let name := Text.trim (String.ofList key)
    if name.isEmpty then .error s!"invalid define '{argument}', empty key"
    else .ok (name, String.ofList (s.drop (key.length + 1)))

/-- The content of a new project file. -/
def defaultConfigText (projectName : String) : String :=
  let ignored := ", ".intercalate (Rule.MissingClass.defaultIgnored.map Toml.quote)
  String.join ([
    "[project]",
    "name = " ++ Toml.quote projectName,
    "source-code-dir = [\".\"]",
    "exclude-path = []",
    "",
    "[xref]",
    "data-dir = \"" ++ configDirectory ++ "\"",
    "project-check = true",
    "storage-manager = \"file\"",
    "",
    "[lint]",
    "report-level = \"warning\"",
    "color = \"auto\"",
    "ignore-error = []",
    "ignore-missing-class = [" ++ ignored ++ "]",
    "",
    "[ci]",
    "source-code-manager = \"git\""].map (· ++ "\n"))

end PhpLint
