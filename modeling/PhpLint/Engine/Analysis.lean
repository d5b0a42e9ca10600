import PhpLint.Plugin.Registry

/-!
The analysis of one file. Every plugin contributes a segment of defects, and a plugin that fails
contributes the defect that says so.
-/
namespace PhpLint

/-- What is known about a file after its analysis. -/
structure FileAnalysis where
  defects : List Defect
  /-- Only where they are collected. -/
  declarations : Option FileDeclarations
  deriving DecidableEq, Repr, Inhabited

/-- The defect in place of what a plugin failed to answer. -/
def pluginFailure (fileName pluginId reason : String) : Defect :=
  .detached fileName 0 pluginId pluginFailedCode .fatal s!"Plugin '{pluginId}' failed: {reason}"

/-- The defect of a file that cannot be parsed. -/
def unparseable (fileName : String) (failure : ParserFailure) : Defect :=
  .detached fileName failure.line "" unparseableCode .fatal s!"Can't parse file ({failure.reason})"

/-- What a plugin declares of a code; its last word counts. -/
def FileLint.description? (lint : FileLint) (code : String) : Option ErrorDescription :=
  lint.codes.reverse.find? (·.code == code)

/-- The defect of a finding; a code must be declared. -/
def FileLint.defect (lint : FileLint) (pluginId : String) (file : SourceFile) (f : Finding) :
    Defect :=
  match lint.description? f.code with
  | some d => .ofToken file f.index d.code d.severity d.message
  | none => pluginFailure file.name pluginId s!"undeclared error code '{f.code}'"

/-- What one plugin has to say about a file. -/
def FileLint.segment (lint : FileLint) (pluginId : String) (file : SourceFile) : List Defect :=
  match lint.findings file with
  | .ok found => found.map (lint.defect pluginId file)
  | .error failure => [pluginFailure file.name pluginId failure.reason]

/-- What one plugin has to say about a project. -/
def ProjectLint.segment (lint : ProjectLint) (pluginId : String) (db : ProjectDatabase) :
    List Defect :=
  match lint.defects db with
  | .ok defects => defects
  | .error failure => [pluginFailure projectFileName pluginId failure.reason]

namespace Registry

/-- What all plugins have to say about a file. -/
def fileDefects (r : Registry) (file : SourceFile) : List Defect :=
  r.lints.flatMap fun (id, lint) => lint.segment id file

def projectDefects (r : Registry) (db : ProjectDatabase) : List Defect :=
  r.projectLints.flatMap fun (id, lint) => lint.segment id db

/-- The analysis of a file, with its declarations if they are collected. -/
def analyze (r : Registry) (collect : Bool) (fileName : String) (content : ByteArray) :
    FileAnalysis :=
  let (defects, declarations) : List Defect × FileDeclarations :=
    match r.parse fileName content with
    | .ok file => (r.fileDefects file, file.declarations)
    | .error failure => ([unparseable fileName failure], ⟨fileName, [], []⟩)
  ⟨defects, if collect then some declarations else none⟩

end Registry

end PhpLint
