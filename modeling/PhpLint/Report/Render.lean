import PhpLint.Json.Writer
import PhpLint.Plugin.Registry
import PhpLint.Report

/-! Reports, totals and error codes as text and as JSON. -/
namespace PhpLint

inductive OutputFormat where
  | text
  | json
  deriving DecidableEq, Repr

/-- Numbers of defects; fatal ones count as errors. -/
structure ReportSummary where
  files : Nat
  errors : Nat
  warnings : Nat
  notices : Nat
  deriving DecidableEq, Repr

/-- What an engine did in a run. -/
structure RunStats where
  /-- Files that were read. -/
  total : Nat
  parsed : Nat
  cacheHits : Nat
  deriving DecidableEq, Repr, Inhabited

namespace ReportSummary

def ofReport (report : Report) : ReportSummary :=
  let severities := report.values.flatten.map (·.severity)
  { files := (report.values.filter (!·.isEmpty)).length
    errors := severities.count .error + severities.count .fatal
    warnings := severities.count .warning
    notices := severities.count .notice }

/-- A run fails if errors or warnings remain. -/
def exitCode (s : ReportSummary) : Nat :=
  if 0 < s.errors + s.warnings then 1 else 0

end ReportSummary

/-- A text with blanks behind it up to a width. -/
def padRight (width : Nat) (s : String) : String :=
  s ++ String.ofList (List.replicate (width - s.length) ' ')

/-- A number with blanks in front of it up to a width. -/
def padNumber (width n : Nat) : String :=
  let s := toString n
  String.ofList (List.replicate (width - s.length) ' ') ++ s

/-- Lines of text, each ended. -/
def lines (ls : List String) : String :=
  String.join (ls.map (· ++ "\n"))

/-- The terminal colour of a severity. -/
def Severity.colour : Severity → String
  | .error | .fatal => "31"
  | .warning => "33"
  | .notice => "32"

/-- A line in the colour of a severity. -/
def paint (severity : Severity) (line : String) : String :=
  "\x1b[" ++ severity.colour ++ "m" ++ line ++ "\x1b[0m"

def Defect.reportLine (d : Defect) : String :=
  let severity := padRight 8 d.severity.name
  s!"    line {padNumber 4 d.line}: {severity} ({d.code}): {d.message}"

namespace Report

/-- Every file with a line for each defect. -/
def renderText (color : Bool) (report : Report) : String :=
  lines (report.flatMap fun (file, defects) =>
    ("File: " ++ file) :: defects.map fun d =>
      if color then paint d.severity d.reportLine else d.reportLine)

def jsonRow (file : String) (d : Defect) : Json :=
  .obj [("fileName", .str file), ("lineNumber", .nat d.line), ("tokenText", .str d.tokenText),
    ("severityStr", .str d.severity.name), ("errorCode", .str d.code),
    ("message", .str d.message)]

/-- One array of all defects, on one line. -/
def renderJson (report : Report) : String :=
  (Json.arr (report.flatMap fun (file, defects) => defects.map (jsonRow file))).compact ++ "\n"

def render (format : OutputFormat) (color : Bool) (report : Report) : String :=
  match format with
  | .text => report.renderText color
  | .json => report.renderJson

end Report

/-- Totals of a run and its report. -/
def renderStats (stats : RunStats) (summary : ReportSummary) : String :=
  lines [s!"Total files:          {stats.total}",
    s!"Files parsed:         {stats.parsed}",
    s!"Cache hits:           {stats.cacheHits}",
    s!"Files with defects:   {summary.files}",
    s!"Errors:               {summary.errors}",
    s!"Warnings:             {summary.warnings}",
    s!"Notices:              {summary.notices}"]

/-- The table of all error codes. -/
def renderErrorMap (format : OutputFormat) (map : Dict ErrorDescription) : String :=
  match format with
  | .text => lines (map.values.map fun e =>
      padRight 8 e.code ++ " " ++ padRight 8 e.severity.name ++ " " ++ e.message)
  | .json => (Json.arr (map.values.map (·.toJson))).pretty 0 ++ "\n"

end PhpLint
