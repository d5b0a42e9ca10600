import PhpLint.Defect.Basic
import PhpLint.Document.Link
import PhpLint.Project.Database

/-!
What can be plugged in: parsers for files, and plugins that lint files, lint the whole project or
document it. All of them are pure functions; the ways in which they can fail are values.
-/
namespace PhpLint

/-- Things a plugin can do. -/
inductive Capability where
  | lint
  | projectLint
  | documentation
  deriving DecidableEq, Repr

namespace Capability

def all : List Capability :=
  [.lint, .projectLint, .documentation]

def name : Capability → String
  | .lint => "lint"
  | .projectLint => "project-lint"
  | .documentation => "documentation"

/-- The name under which a capability enters a fingerprint. -/
def tag : Capability → String
  | .lint => "Lint"
  | .projectLint => "ProjectLint"
  | .documentation => "Documentation"

end Capability

/-- A breakdown of code that is plugged in; it may come without a message. -/
structure Crash where
  message : Option String
  deriving DecidableEq, Repr

def Crash.reason (c : Crash) : String :=
  match c.message with
  | some message => "panic: " ++ message
  | none => "panic"

/-- How a plugin fails. -/
inductive PluginFailure where
  /-- It reports an error. -/
  | error (message : String)
  | crash (crash : Crash)
  deriving DecidableEq, Repr

def PluginFailure.reason : PluginFailure → String
  | .error message => message
  | .crash c => c.reason

/-- The failure of a plugin, with its id. -/
def PluginFailure.message (pluginId : String) (failure : PluginFailure) : String :=
  s!"plugin '{pluginId}' failed: {failure.reason}"

/-- How a parser fails. -/
inductive ParserFailure where
  | error (error : ParseError)
  | crash (crash : Crash)
  deriving DecidableEq, Repr

/-- The line to blame; 0 if it is unknown. -/
def ParserFailure.line : ParserFailure → Nat
  | .error e => e.line
  | .crash _ => 0

def ParserFailure.reason : ParserFailure → String
  | .error e => e.message
  | .crash c => c.reason

/-- Reads files with some extensions. -/
structure Parser where
  extensions : List String
  parse : (fileName : String) → (content : ByteArray) → Except ParserFailure SourceFile

/-- A code that a plugin may report. -/
structure ErrorDescription where
  code : String
  severity : Severity
  message : String
  deriving DecidableEq, Repr

def ErrorDescription.toJson (e : ErrorDescription) : Json :=
  .obj [("code", .str e.code), ("severity", .str e.severity.name), ("message", .str e.message)]

/-- A token that a plugin objects to. -/
structure Finding where
  index : Nat
  code : String
  deriving DecidableEq, Repr

structure FileLint where
  codes : List ErrorDescription
  findings : SourceFile → Except PluginFailure (List Finding)

structure ProjectLint where
  codes : List ErrorDescription
  defects : ProjectDatabase → Except PluginFailure (List Defect)

/-- A documentation page. -/
structure Page where
  objectId : String
  content : String
  deriving DecidableEq, Repr

structure Documentation where
  /-- The ranges of a file that link to pages. -/
  links : SourceFile → Except PluginFailure (List LinkedRange)
  /-- The pages about all files whose links were found. -/
  pages : List SourceFile → Except PluginFailure (List Page)
  /-- The link to the page of an object, from a directory. -/
  linkTo : LinkDatabase → (objectId root : String) → Option String

/-- A plugin; its results are filed under its id. -/
structure Plugin where
  id : String
  name : String
  /-- Changes with what the plugin answers. -/
  version : String
  lint : Option FileLint
  projectLint : Option ProjectLint
  documentation : Option Documentation

namespace Plugin

def has (p : Plugin) : Capability → Bool
  | .lint => p.lint.isSome
  | .projectLint => p.projectLint.isSome
  | .documentation => p.documentation.isSome

def capabilities (p : Plugin) : List Capability :=
  Capability.all.filter p.has

/-- A plugin that lints files. -/
def ofLint (id name : String) (lint : FileLint) : Plugin :=
  ⟨id, name, "1", some lint, none, none⟩

def ofProjectLint (id name : String) (lint : ProjectLint) : Plugin :=
  ⟨id, name, "1", none, some lint, none⟩

def ofDocumentation (id name : String) (documentation : Documentation) : Plugin :=
  ⟨id, name, "1", none, none, some documentation⟩

end Plugin

end PhpLint
