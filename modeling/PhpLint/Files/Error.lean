import PhpLint.Revision.Basic

/-! Failures of the file system, and of whatever provides files. -/
namespace PhpLint

/-- What the file system refuses. -/
inductive DiskError where
  | notFound
  | alreadyExists
  | notDirectory
  | isDirectory
  | nameTooLong
  | invalidName
  deriving DecidableEq, Repr

def DiskError.message : DiskError → String
  | .notFound => "No such file or directory (os error 2)"
  | .alreadyExists => "File exists (os error 17)"
  | .notDirectory => "Not a directory (os error 20)"
  | .isDirectory => "Is a directory (os error 21)"
  | .nameTooLong => "File name too long (os error 36)"
  | .invalidName => "file name contained an unexpected NUL byte"

/-- Why files cannot be listed or read. -/
inductive ProviderError where
  | notFound (path : String)
  | disk (path reason : String)
  | invalidPattern (pattern reason : String)
  | sourceControl (error : SourceControlError)
  deriving DecidableEq, Repr

def ProviderError.message : ProviderError → String
  | .notFound path => s!"file not found: {path}"
  | .disk path reason => s!"IO error reading {path}: {reason}"
  | .invalidPattern pattern reason => s!"invalid exclude pattern '{pattern}': {reason}"
  | .sourceControl error => error.message

/-- Why data cannot be kept or read back. -/
inductive StorageError where
  | disk (path reason : String)
  | corrupt (reason : String)
  /-- Another user of the storage broke down while changing it. -/
  | poisoned
  deriving DecidableEq, Repr

def StorageError.message : StorageError → String
  | .disk path reason => s!"IO error at {path}: {reason}"
  | .corrupt reason => s!"storage entry corrupt: {reason}"
  | .poisoned => "storage lock poisoned"

end PhpLint
