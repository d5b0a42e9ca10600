import PhpLint.Defect.Basic
import PhpLint.Dict

/-! Reports: the defects of each file, their filtering, and what is new between two reports. -/
namespace PhpLint

/-- The defects of each file, in the order of the file names. -/
abbrev Report := Dict (List Defect)

/-- What a report shows. -/
structure ReportFilter where
  level : Severity
  /-- Codes that are left out. -/
  ignored : List String
  deriving DecidableEq, Repr

def ReportFilter.default : ReportFilter :=
  ⟨.warning, []⟩

def ReportFilter.accepts (filter : ReportFilter) (d : Defect) : Bool :=
  filter.level.level ≤ d.severity.level && !filter.ignored.contains d.code

namespace Report

/-- Adds a defect at the end of its file's list. -/
def add (report : Report) (d : Defect) : Report :=
  report.update d.fileName [] (· ++ [d])

/-- The files for which defects are kept, each with its defects. -/
def filterMapDefects (f : String → List Defect → List Defect) (report : Report) : Report :=
  report.filterMap fun (file, defects) =>
    let kept := f file defects
    if kept.isEmpty then none else some (file, kept)

/-- The defects that a filter accepts, by line; defects of one line stay in order. -/
def sortedAndFiltered (filter : ReportFilter) (report : Report) : Report :=
  report.filterMapDefects fun _ defects =>
    (defects.filter filter.accepts).mergeSort fun a b => a.line ≤ b.line

/-- The defects that remain when each known signature takes away one defect, from the front. -/
def withoutKnown (known : List Defect.Signature) : List Defect → List Defect
  | [] => []
  | d :: ds =>
    if known.contains d.signature then withoutKnown (known.erase d.signature) ds
    else d :: withoutKnown known ds

/-- The defects of a report that an earlier one does not have, counted by signature. -/
def newSince (earlier report : Report) : Report :=
  report.filterMapDefects fun file defects =>
    withoutKnown (((earlier.get? file).getD []).map Defect.signature) defects

/-- Number of defects of at least a severity. -/
def countAtLeast (report : Report) (severity : Severity) : Nat :=
  (report.values.flatten.filter fun d => severity.level ≤ d.severity.level).length

end Report

end PhpLint
