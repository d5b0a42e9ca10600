import PhpLint.Cli.Arguments
import PhpLint.Cli.Commands

/-! The program: a command line, an environment and a tree of files, and what comes of them. -/
namespace PhpLint.Cli

def programName : String :=
  "xref"

/-- The environment that the program reads; empty values count as absent. -/
structure Environment where
  config : Option String
  reportLevel : Option String
  /-- Whether the output goes to a terminal. -/
  isTerminal : Bool

/-- What a run of the program leaves besides the files. -/
structure Outcome where
  exitCode : Nat
  output : String
  errors : String
  deriving DecidableEq, Repr

def Outcome.success (output : String) : Outcome :=
  ⟨0, output, ""⟩

def Outcome.ofFailure (e : Failure) : Outcome :=
  ⟨e.exitCode, "", programName ++ ": " ++ e.message ++ "\n"⟩

def helpText : String :=
  lines ["Find problems in PHP source code", "",
    "Usage: xref [OPTIONS] <COMMAND>", "",
    "Commands:",
    "  lint    Lint files, or the changes between two git revisions",
    "  init    Create .xref/xref.toml and initialize the lint cache",
    "  errors  List every error code with its severity",
    "  doc     Generate the declaration index for the project"]

def Outcome.ofStop : Stop → Outcome
  | .help => .success helpText
  | .version => .success (programName ++ " 0.1.0\n")
  | .usage e => ⟨2, "", "error: " ++ e.message ++ "\n"⟩

/-- The directory in which the program runs. -/
def currentDirectory (t : FileTree) : String :=
  "/" ++ "/".intercalate t.workingDirectory

def sourcesOf (env : Environment) (options : GlobalOptions) (t : FileTree) : ConfigSources where
  configPath := options.config
  envConfigPath := env.config.filter (!·.isEmpty)
  envReportLevel := env.reportLevel.filter (!·.isEmpty)
  defines := options.defines
  startDirectory := currentDirectory t

/-- What a lint run looks at. -/
def targetOf (paths : List String) (git gitCached : Bool) (gitRev : Option String) :
    Except Failure LintTarget :=
  match gitRev with
  | some spec => ((RevisionSpec.parse spec).map .revisions).mapError .ofSourceControl
  | none => .ok <|
    if gitCached then .revisions (.range .head .staged)
    else if git then .revisions (.range .head .workingTree)
    else .paths paths

/-- The outcome of a command that may fail. -/
def finish {α : Type} (view : α → Outcome) (result : Except Failure α × FileTree) :
    Outcome × FileTree :=
  match result with
  | (.ok a, t) => (view a, t)
  | (.error e, t) => (.ofFailure e, t)

/-- The report, with totals behind it if they are asked for. -/
def lintOutcome (c : LoadedConfig) (format : OutputFormat) (verbose isTerminal : Bool)
    (o : LintOutcome) : Outcome :=
  let summary := ReportSummary.ofReport o.report
  let totals := if verbose && format == .text then renderStats o.stats summary else ""
  ⟨summary.exitCode, o.report.render format (c.settings.color.enabled isTerminal) ++ totals, ""⟩

def initOutcome (o : InitOutcome) : Outcome :=
  let verb := if o.created then "created" else "kept"
  .success (lines [verb ++ " " ++ o.configFile, s!"indexed {o.stats.total} files"])

def docOutcome (o : DocOutcome) : Outcome :=
  .success (o.problems.render .text false
    ++ lines [s!"wrote {o.written.length} files to {o.directory}"])

/-- The configuration with the report level of the command line. -/
def withLevel (c : LoadedConfig) (level : Option String) : Except Failure LoadedConfig :=
  match level with
  | none => .ok c
  | some level =>
    match c.settings.setText SettingKey.reportLevel.text level with
    | .ok settings => .ok { c with settings }
    | .error e => .error (.configuration e)

/-- Runs a command. -/
def execute (env : Environment) (options : GlobalOptions) (command : Command) (t : FileTree) :
    Outcome × FileTree :=
  let sources := sourcesOf env options t
  match command with
  | .lint paths output level useCache git gitCached gitRev verbose =>
    let prepared := do
      let config ← withLevel (← sources.config t) level
      return (config, ← targetOf paths git gitCached gitRev)
    match prepared with
    | .error e => (.ofFailure e, t)
    | .ok (config, target) =>
      finish (lintOutcome config output verbose env.isTerminal) (config.lint target useCache t)
  | .init => finish initOutcome (sources.init (currentDirectory t) t)
  | .errors output =>
    let map := do
      let config ← sources.config t
      return (← config.settings.registry).errorMap
    finish (fun map => .success (renderErrorMap output map)) (map, t)
  | .doc directory =>
    match sources.config t with
    | .error e => (.ofFailure e, t)
    | .ok config => finish docOutcome (config.document directory t)

/-- Runs the program. -/
def run (env : Environment) (arguments : List String) (t : FileTree) : Outcome × FileTree :=
  match parseArguments arguments with
  | .error stop => (.ofStop stop, t)
  | .ok (options, command) => execute env options command t

end PhpLint.Cli
