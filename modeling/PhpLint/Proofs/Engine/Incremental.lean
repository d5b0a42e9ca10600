import PhpLint.Proofs.Dict
import PhpLint.Proofs.Engine.Transparency

/-!
Incremental reports. An engine that looks at files one by one leaves the others out beforehand, and
one that looks at the project afterwards; both report what is new between the restricted reports.
-/
namespace PhpLint

/-! ### Reports -/

theorem Report.sorted_add {report : Report} (h : report.Sorted) (d : Defect) :
    (report.add d).Sorted :=
  h.insert d.fileName _

theorem Report.restrict_add {report : Report} (h : report.Sorted) (keep : String → Bool)
    (d : Defect) : Dict.restrict keep (report.add d) =
      if keep d.fileName then Report.add (Dict.restrict keep report) d
      else Dict.restrict keep report := by
  unfold Report.add Dict.update
  by_cases hkeep : keep d.fileName
  · rw [if_pos hkeep, Dict.restrict_insert_of_pos h hkeep, Dict.get?_restrict hkeep]
  · rw [if_neg hkeep, Dict.restrict_insert_of_neg hkeep]

/-- Defects of files that are left out need not be added. -/
theorem Report.restrict_foldl_add {report : Report} (h : report.Sorted) (keep : String → Bool)
    (defects : List Defect) : Dict.restrict keep (defects.foldl Report.add report) =
      (defects.filter fun d => keep d.fileName).foldl Report.add (Dict.restrict keep report) := by
  induction defects generalizing report with
  | nil => rfl
  | cons d defects ih =>
    rw [List.foldl_cons, ih (Report.sorted_add h d), Report.restrict_add h]
    rw [List.filter_cons]
    split
    · rw [List.foldl_cons]
    · rfl

namespace Engine

/-- Whether the incremental reports of an engine are about a file. -/
def covers (e : Engine) (changed : List String) (fileName : String) : Bool :=
  match e.mode with
  | .simple => changed.contains fileName
  | .project => changed.contains fileName || fileName == projectFileName

/-! ### Restriction of a run -/

theorem sorted_fileReport {analyses : Dict FileAnalysis} (h : analyses.Sorted) :
    Dict.Sorted (fileReport analyses) := by
  refine h.filterMap _ ?_
  rintro ⟨file, analysis⟩ ⟨file', analysis'⟩ hlt entry hentry entry' hentry'
  dsimp only at hentry hentry'
  split at hentry
  · contradiction
  · split at hentry'
    · contradiction
    · cases hentry
      cases hentry'
      exact hlt

theorem fileReport_restrict (keep : String → Bool) (analyses : Dict FileAnalysis) :
    fileReport (analyses.restrict keep) = Dict.restrict keep (fileReport analyses) := by
  induction analyses with
  | nil => rfl
  | cons entry analyses ih =>
    obtain ⟨file, analysis⟩ := entry
    have hcons (rest : Dict FileAnalysis) : fileReport ((file, analysis) :: rest) =
        if analysis.defects.isEmpty then fileReport rest
        else (file, analysis.defects) :: fileReport rest := by
      unfold fileReport
      rw [List.filterMap_cons]
      by_cases hempty : analysis.defects.isEmpty
      · simp only [hempty, if_true]
      · simp only [hempty, Bool.false_eq_true, if_false]
    rw [hcons]
    by_cases hkeep : keep file
    · rw [Dict.restrict_cons_of_pos hkeep, hcons, ih]
      split
      · rfl
      · rw [Dict.restrict_cons_of_pos hkeep]
    · rw [Dict.restrict_cons_of_neg hkeep, ih]
      split
      · rfl
      · rw [Dict.restrict_cons_of_neg hkeep]

/-- Files that are left out beforehand are not analysed. -/
theorem analyses_filter (e : Engine) (provider : Provider) (names : List String)
    (keep : String → Bool) : e.analyses provider (names.filter keep) =
      Dict.restrict keep (e.analyses provider names) := by
  induction names with
  | nil => rfl
  | cons name names ih =>
    have hcons (rest : List String) : e.analyses provider (name :: rest) =
        ((provider.content name).toOption.map fun content =>
          (name, e.registry.analysis e.mode (name, content))).toList ++
          e.analyses provider rest := by
      unfold analyses readable
      rw [List.filterMap_cons]
      cases provider.content name <;> rfl
    rw [hcons]
    by_cases hkeep : keep name
    · rw [List.filter_cons_of_pos hkeep, hcons, ih]
      cases provider.content name with
      | error failure => rfl
      | ok content => exact (Dict.restrict_cons_of_pos hkeep _ _).symm
    · rw [List.filter_cons_of_neg hkeep, ih]
      cases provider.content name with
      | error failure => rfl
      | ok content => exact (Dict.restrict_cons_of_neg hkeep _ _).symm

/-- What an engine without a storage reports on the files of a list. -/
def reportOn (e : Engine) (only : Option (List String)) (provider : Provider)
    (names : List String) : Report :=
  e.reportOf only (.ofList (e.analyses provider (names.filter (e.selects only))))

/-- It makes no difference for a restricted report whether other files are analysed. -/
theorem reportOn_restrict (e : Engine) (changed : List String) (provider : Provider)
    (names : List String) : e.reportOn (some changed) provider names =
      Dict.restrict (e.covers changed) (e.reportOn none provider names) := by
  unfold reportOn reportOf
  cases hmode : e.mode with
  | simple =>
    have hselects : names.filter (e.selects (some changed)) =
        (names.filter (e.selects none)).filter (e.covers changed) := by
      rw [List.filter_filter]
      congr 1
      funext file
      unfold selects covers
      rw [hmode, Bool.and_true, Bool.and_comm]
    dsimp only
    rw [hselects, analyses_filter, Dict.ofList_restrict, fileReport_restrict]
  | project =>
    have hselects : e.selects (some changed) = e.selects none := by
      funext file
      unfold selects
      rw [hmode]
    have hkept : isKept (some changed) = e.covers changed := by
      funext file
      unfold isKept covers
      rw [hmode, Bool.or_comm]
    have hall (fileName : String) : isKept none fileName = true := rfl
    dsimp only
    rw [hselects, hkept]
    simp only [hall, List.filter_true]
    rw [Report.restrict_foldl_add (sorted_fileReport (Dict.sorted_ofList _))]
    rfl

theorem run_none {provider : Provider} {names : List String} (h : provider.list = .ok names)
    (e : Engine) (only : Option (List String)) : ∃ run,
      e.run Storage.none only provider () = (.ok run, ()) ∧
        run.report = e.reportOn only provider names := by
  refine ⟨_, by unfold run; rw [h], ?_⟩
  exact congrArg (fun entries => e.reportOf only (.ofList entries)) (e.analyzeFiles_none ..)

/--
An incremental report is what is new between the reports on both states, each of them restricted to
the changed files and, where the project is looked at, what is filed under it.
-/
theorem incrementalReport_eq_newSince (e : Engine) {old new : Provider}
    {oldNames newNames : List String} (hold : old.list = .ok oldNames)
    (hnew : new.list = .ok newNames) (changed : List String) :
    ∃ before after run, e.report Storage.none old () = (.ok before, ()) ∧
      e.report Storage.none new () = (.ok after, ()) ∧
      e.incrementalReport Storage.none old new changed () = (.ok run, ()) ∧
      run.report = Report.newSince (Dict.restrict (e.covers changed) before.report)
        (Dict.restrict (e.covers changed) after.report) := by
  obtain ⟨before, hbefore, hbeforeReport⟩ := run_none hold e none
  obtain ⟨after, hafter, hafterReport⟩ := run_none hnew e none
  obtain ⟨before', hbefore', hbeforeReport'⟩ := run_none hold e (some changed)
  obtain ⟨after', hafter', hafterReport'⟩ := run_none hnew e (some changed)
  refine ⟨before, after, _, hbefore, hafter, by
    unfold incrementalReport
    rw [hbefore']
    dsimp only
    rw [hafter'], ?_⟩
  rw [hbeforeReport, hafterReport, ← reportOn_restrict, ← reportOn_restrict, ← hbeforeReport',
    ← hafterReport']

/-- A file is added next to one that stays, and a name that is no file is given twice. -/
theorem incrementalReport_eq_newSince_added_file :
    let e : Engine := ⟨⟨[("php", .php)], [Rule.LiteralCase.plugin]⟩, .project, false⟩
    let kept : String × ByteArray := ("a.php", "<?php echo TRUE;".toUTF8)
    let old := (MemoryFiles.ofFiles [kept]).provider
    let new := (MemoryFiles.ofFiles [kept, ("b.php", "<?php echo NULL;".toUTF8)]).provider
    let changed := ["c.php", "b.php", "c.php"]
    ∃ before after run, e.report Storage.none old () = (.ok before, ()) ∧
      e.report Storage.none new () = (.ok after, ()) ∧
      e.incrementalReport Storage.none old new changed () = (.ok run, ()) ∧
      run.report = Report.newSince (Dict.restrict (e.covers changed) before.report)
        (Dict.restrict (e.covers changed) after.report) := by
  intro e kept old new changed
  exact incrementalReport_eq_newSince e (rfl : old.list = .ok _) (rfl : new.list = .ok _) changed

end Engine

end PhpLint
