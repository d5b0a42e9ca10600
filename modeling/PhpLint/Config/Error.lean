/-! What can be wrong with a setup. -/
namespace PhpLint

/-- A broken setup; it ends a run before any file is read. -/
inductive ConfigError where
  | duplicateParserExtension (extension : String)
  | duplicatePluginId (id : String)
  | unknownReportLevel (value : String)
  | invalidValue (key value reason : String)
  | unreadable (path reason : String)
  deriving DecidableEq, Repr

def ConfigError.message : ConfigError → String
  | .duplicateParserExtension extension =>
    s!"parser for file extension '{extension}' already exists"
  | .duplicatePluginId id => s!"plugin '{id}' is already registered"
  | .unknownReportLevel value => s!"unknown value for config var 'lint.report-level': {value}"
  | .invalidValue key value reason => s!"invalid value '{value}' for config var '{key}': {reason}"
  | .unreadable path reason => s!"cannot read config file {path}: {reason}"

end PhpLint
