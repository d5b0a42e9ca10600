import PhpLint.Config.Error
import PhpLint.Files.Error

/-! The failures of a run, and how each ends it. -/
namespace PhpLint

/-- Why a run ends without a result. -/
inductive Failure where
  | invalidArguments (message : String)
  | configuration (error : ConfigError)
  | notFound (message : String)
  | sourceControl (message : String)
  | storage (message : String)
  /-- A state that should not occur. -/
  | internal (message : String)
  deriving DecidableEq, Repr

namespace Failure

def message : Failure → String
  | .invalidArguments message => s!"invalid arguments: {message}"
  | .configuration error => s!"configuration error: {error.message}"
  | .notFound message => s!"not found: {message}"
  | .sourceControl message => s!"source control error: {message}"
  | .storage message => s!"storage error: {message}"
  | .internal message => s!"internal error: {message}"

/-- The exit code of the process. -/
def exitCode : Failure → Nat
  | .invalidArguments _ | .configuration _ => 2
  | .notFound _ | .sourceControl _ => 3
  | .storage _ => 4
  | .internal _ => 10

def ofSourceControl (e : SourceControlError) : Failure :=
  match e with
  | .notFound _ _ | .invalidRevision _ => .notFound e.message
  | _ => .sourceControl e.message

def ofStorage (e : StorageError) : Failure :=
  .storage e.message

/-- A bad pattern is a bad setting. -/
def ofProvider (e : ProviderError) : Failure :=
  match e with
  | .notFound _ => .notFound e.message
  | .invalidPattern pattern reason =>
    .configuration (.invalidValue "project.exclude-path" pattern reason)
  | .sourceControl error => ofSourceControl error
  | .disk _ _ => .internal e.message

end Failure

end PhpLint
