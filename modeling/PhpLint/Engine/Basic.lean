import PhpLint.Engine.Cache
import PhpLint.Files.Provider
import PhpLint.Report.Render

/-!
Engines: they read the files of a provider, analyse each of them or find its analysis in a storage,
and put the defects together into a report.
-/
namespace PhpLint

structure Engine where
  registry : Registry
  mode : LintMode
  /-- Kept results are not used, but replaced. -/
  refreshCache : Bool

/-- A sign of life before a file is read. -/
structure Progress where
  /-- The number of the file, from 1. -/
  current : Nat
  total : Nat
  fileName : String
  deriving DecidableEq, Repr

def RunStats.zero : RunStats :=
  ⟨0, 0, 0⟩

def RunStats.add (a b : RunStats) : RunStats :=
  ⟨a.total + b.total, a.parsed + b.parsed, a.cacheHits + b.cacheHits⟩

/-- Counts one file. -/
def RunStats.count (stats : RunStats) (hit : Bool) : RunStats :=
  if hit then { stats with total := stats.total + 1, cacheHits := stats.cacheHits + 1 }
  else { stats with total := stats.total + 1, parsed := stats.parsed + 1 }

/-- A report with how it came about. -/
structure Run where
  report : Report
  stats : RunStats
  progress : List Progress
  deriving Repr

namespace Engine

variable {σ : Type}

/-- The analysis that a storage has for a key, if it has all that is asked for. -/
def restored? (e : Engine) (storage : Storage σ) (key : String) (s : σ) :
    Option FileAnalysis × σ :=
  if e.refreshCache then (none, s)
  else
    let (entry, s) := storage.entry? key s
    let analysis := entry.map (·.analysis)
    (analysis.filter fun a => !e.mode.collects || a.declarations.isSome, s)

/-- The analysis of a file, and whether it was found in the storage. -/
def analyze (e : Engine) (storage : Storage σ) (fileName : String) (content : ByteArray) (s : σ) :
    (FileAnalysis × Bool) × σ :=
  let key := cacheKey (e.registry.analysisFingerprint e.mode) fileName content
  match e.restored? storage key s with
  | (some analysis, s) => ((analysis, true), s)
  | (none, s) =>
    let analysis := e.registry.analyze e.mode.collects fileName content
    ((analysis, false), storage.keep key ⟨fileName, analysis⟩ s)

/-- Analyses files one after the other. Those that cannot be read are left out. -/
def analyzeFiles (e : Engine) (storage : Storage σ) (provider : Provider) :
    List String → RunStats → σ → (List (String × FileAnalysis) × RunStats) × σ
  | [], stats, s => (([], stats), s)
  | file :: files, stats, s =>
    match provider.content file with
    | .error _ => e.analyzeFiles storage provider files stats s
    | .ok content =>
      let ((analysis, hit), s) := e.analyze storage file content s
      let ((rest, stats), s) := e.analyzeFiles storage provider files (stats.count hit) s
      (((file, analysis) :: rest, stats), s)

/-- Whether a report that is restricted to some files takes in defects of a file. -/
def isKept (only : Option (List String)) (fileName : String) : Bool :=
  match only with
  | none => true
  | some files => fileName == projectFileName || files.contains fileName

/-- The files that are analysed. The project is always analysed as a whole. -/
def selects (e : Engine) (only : Option (List String)) (fileName : String) : Bool :=
  e.registry.canParse fileName &&
    match e.mode, only with
    | .simple, some files => files.contains fileName
    | _, _ => true

/-- The database of all files, and the defects that come to light while it is built. -/
def projectOf : Dict FileAnalysis → ProjectDatabase → ProjectDatabase × List Defect
  | [], db => (db, [])
  | (file, analysis) :: rest, db =>
    let (db, found) := db.addFile (analysis.declarations.getD ⟨file, [], []⟩)
    let (db, more) := projectOf rest db
    (db, found ++ more)

/-- The files that have defects, with their defects. -/
def fileReport (analyses : Dict FileAnalysis) : Report :=
  analyses.filterMap fun (file, analysis) =>
    if analysis.defects.isEmpty then none else some (file, analysis.defects)

/-- The report on analysed files. -/
def reportOf (e : Engine) (only : Option (List String)) (analyses : Dict FileAnalysis) : Report :=
  match e.mode with
  | .simple => fileReport analyses
  | .project =>
    let (db, duplicates) := projectOf analyses .empty
    let defects := duplicates ++ e.registry.projectDefects db
    (defects.filter fun d => isKept only d.fileName).foldl Report.add
      ((fileReport analyses).filter fun (file, _) => isKept only file)

def progressOf (files : List String) : List Progress :=
  files.zipIdx.map fun (file, i) => ⟨i + 1, files.length, file⟩

/-- A run over the files of a provider, restricted to some files if they are given. -/
def run (e : Engine) (storage : Storage σ) (only : Option (List String)) (provider : Provider)
    (s : σ) : Except ProviderError Run × σ :=
  match provider.list with
  | .error failure => (.error failure, s)
  | .ok files =>
    let files := files.filter (e.selects only)
    let ((analyses, stats), s) := e.analyzeFiles storage provider files .zero s
    (.ok ⟨e.reportOf only (.ofList analyses), stats, progressOf files⟩, s)

/-- The report on all files of a provider. -/
def report (e : Engine) (storage : Storage σ) (provider : Provider) (s : σ) :
    Except ProviderError Run × σ :=
  e.run storage none provider s

/-- What is new between two states of the files, as far as it concerns the changed ones. -/
def incrementalReport (e : Engine) (storage : Storage σ) (old new : Provider)
    (changed : List String) (s : σ) : Except ProviderError Run × σ :=
  match e.run storage (some changed) old s with
  | (.error failure, s) => (.error failure, s)
  | (.ok before, s) =>
    match e.run storage (some changed) new s with
    | (.error failure, s) => (.error failure, s)
    | (.ok after, s) =>
      (.ok ⟨Report.newSince before.report after.report, before.stats.add after.stats,
        before.progress ++ after.progress⟩, s)

end Engine

end PhpLint
