import PhpLint.Proofs.Engine.Incremental
import PhpLint.Proofs.Report

/-!
Faults stay where they are. The defects of a file are what its plugins contribute one after the
other, and what a plugin contributes depends on that plugin and the file alone.
-/
namespace PhpLint

/-! ### Contributions -/

/-- The defect that a finding becomes: it takes the last description of its code. -/
inductive FileLint.Becomes (lint : FileLint) (pluginId : String) (file : SourceFile) (f : Finding) :
    Defect → Prop where
  | declared {before after : List ErrorDescription} {e : ErrorDescription}
    (hcodes : lint.codes = before ++ e :: after) (hcode : e.code = f.code)
    (hlast : ∀ other ∈ after, other.code ≠ f.code) :
    Becomes lint pluginId file f (.ofToken file f.index e.code e.severity e.message)
  | undeclared (h : ∀ e ∈ lint.codes, e.code ≠ f.code) :
    Becomes lint pluginId file f
      (pluginFailure file.name pluginId s!"undeclared error code '{f.code}'")

/-- What a plugin has to say about a file, by how its lint comes out. -/
inductive Plugin.Contributes (p : Plugin) (file : SourceFile) : List Defect → Prop where
  | nothing (hlint : p.lint = none) : Contributes p file []
  | failed {lint : FileLint} {failure : PluginFailure} (hlint : p.lint = some lint)
    (h : lint.findings file = .error failure) :
    Contributes p file [pluginFailure file.name p.id failure.reason]
  | found {lint : FileLint} {findings : List Finding} {defects : List Defect}
    (hlint : p.lint = some lint) (h : lint.findings file = .ok findings)
    (hdefects : List.Forall₂ (lint.Becomes p.id file) findings defects) :
    Contributes p file defects

/-- What a plugin has to say about a project, by how its lint comes out. -/
inductive Plugin.ContributesToProject (p : Plugin) (db : ProjectDatabase) : List Defect → Prop where
  | nothing (hlint : p.projectLint = none) : ContributesToProject p db []
  | failed {lint : ProjectLint} {failure : PluginFailure} (hlint : p.projectLint = some lint)
    (h : lint.defects db = .error failure) :
    ContributesToProject p db [pluginFailure projectFileName p.id failure.reason]
  | found {lint : ProjectLint} {defects : List Defect} (hlint : p.projectLint = some lint)
    (h : lint.defects db = .ok defects) : ContributesToProject p db defects

/-- A fatal defect of a file. -/
structure Defect.IsFatal (d : Defect) (code fileName : String) : Prop where
  code : d.code = code
  severity : d.severity = .fatal
  fileName : d.fileName = fileName

namespace Plugin

/-- The segment of a plugin in the defects of a file. -/
def segment (p : Plugin) (file : SourceFile) : List Defect :=
  (p.lint.map (·.segment p.id file)).getD []

/-- The segment of a plugin in the defects of a project. -/
def projectSegment (p : Plugin) (db : ProjectDatabase) : List Defect :=
  (p.projectLint.map (·.segment p.id db)).getD []

end Plugin

variable {lint : FileLint} {p : Plugin} {file : SourceFile} {db : ProjectDatabase}

theorem isFatal_pluginFailure (fileName pluginId reason : String) :
    (pluginFailure fileName pluginId reason).IsFatal "xr002" fileName :=
  ⟨rfl, rfl, rfl⟩

theorem isFatal_unparseable (fileName : String) (failure : ParserFailure) :
    (unparseable fileName failure).IsFatal "xr001" fileName :=
  ⟨rfl, rfl, rfl⟩

theorem FileLint.becomes_defect (lint : FileLint) (pluginId : String) (file : SourceFile)
    (f : Finding) : lint.Becomes pluginId file f (lint.defect pluginId file f) := by
  unfold defect
  cases hfound : lint.description? f.code with
  | none =>
    refine .undeclared fun e he => ?_
    have hnone := List.find?_eq_none.mp hfound e (List.mem_reverse.mpr he)
    simpa using hnone
  | some e =>
    obtain ⟨hcode, before, after, hcodes, hbefore⟩ := List.find?_eq_some_iff_append.mp hfound
    have hsplit : lint.codes = after.reverse ++ e :: before.reverse := by
      rw [← List.reverse_reverse lint.codes, hcodes]
      simp
    refine .declared hsplit (eq_of_beq hcode) fun other hother => ?_
    simpa using hbefore other (List.mem_reverse.mp hother)

theorem Plugin.contributes_segment (p : Plugin) (file : SourceFile) :
    p.Contributes file (p.segment file) := by
  unfold segment
  cases hlint : p.lint with
  | none => exact .nothing hlint
  | some lint =>
    rw [Option.map_some, Option.getD_some]
    unfold FileLint.segment
    cases hfindings : lint.findings file with
    | error failure => exact .failed hlint hfindings
    | ok findings =>
      refine .found hlint hfindings (List.forall₂_map_right_iff.mpr ?_)
      exact List.forall₂_same.mpr fun f _ => lint.becomes_defect p.id file f

theorem Plugin.contributesToProject_projectSegment (p : Plugin) (db : ProjectDatabase) :
    p.ContributesToProject db (p.projectSegment db) := by
  unfold projectSegment
  cases hlint : p.projectLint with
  | none => exact .nothing hlint
  | some lint =>
    rw [Option.map_some, Option.getD_some]
    unfold ProjectLint.segment
    cases hdefects : lint.defects db with
    | error failure => exact .failed hlint hdefects
    | ok defects => exact .found hlint hdefects

/-! ### Files and projects -/

theorem Registry.fileDefects_eq (r : Registry) (file : SourceFile) :
    r.fileDefects file = r.plugins.flatMap (·.segment file) := by
  unfold fileDefects lints
  induction r.plugins with
  | nil => rfl
  | cons p plugins ih =>
    rw [List.flatMap_cons, ← ih, List.filterMap_cons]
    unfold Plugin.segment
    cases p.lint <;> rfl

theorem Registry.projectDefects_eq (r : Registry) (db : ProjectDatabase) :
    r.projectDefects db = r.plugins.flatMap (·.projectSegment db) := by
  unfold projectDefects projectLints
  induction r.plugins with
  | nil => rfl
  | cons p plugins ih =>
    rw [List.flatMap_cons, ← ih, List.filterMap_cons]
    unfold Plugin.projectSegment
    cases p.projectLint <;> rfl

/-! ### Reports -/

theorem Report.defectsOf_add (report : Report) (d : Defect) (name : String) :
    (report.add d).defectsOf name =
      report.defectsOf name ++ if d.fileName = name then [d] else [] := by
  unfold Report.add Dict.update defectsOf
  by_cases hname : d.fileName = name
  · rw [hname, Dict.get?_insert_self, if_pos rfl]
    rfl
  · rw [Dict.get?_insert_of_ne (Ne.symm hname), if_neg hname, List.append_nil]

/-- Defects come behind those that their file has already. -/
theorem Report.defectsOf_foldl_add (report : Report) (defects : List Defect) (name : String) :
    (defects.foldl Report.add report).defectsOf name =
      report.defectsOf name ++ defects.filter (·.fileName = name) := by
  induction defects generalizing report with
  | nil => exact (List.append_nil _).symm
  | cons d defects ih =>
    rw [List.foldl_cons, ih, defectsOf_add, List.append_assoc]
    by_cases hname : d.fileName = name
    · rw [if_pos hname, List.filter_cons_of_pos (by simpa using hname)]
      rfl
    · rw [if_neg hname, List.filter_cons_of_neg (by simpa using hname)]
      rfl

/-- An analysis as it were without defects. -/
def FileAnalysis.undefective (analysis : FileAnalysis) : FileAnalysis :=
  { analysis with defects := [] }

namespace Engine

variable {e : Engine} {provider : Provider} {names : List String} {name : String}
  {plugins : List Plugin}

theorem defectsOf_fileReport {analyses : Dict FileAnalysis} (h : analyses.Sorted) (name : String) :
    (fileReport analyses).defectsOf name = ((analyses.get? name).map (·.defects)).getD [] := by
  have hform : fileReport analyses = analyses.filterMap fun entry =>
      (Option.guard (!·.isEmpty) entry.2.defects).map (entry.1, ·) := by
    unfold fileReport
    congr 1
    funext entry
    obtain ⟨file, analysis⟩ := entry
    dsimp only
    cases analysis.defects <;> rfl
  rw [Report.defectsOf, hform,
    h.get?_filterMap fun _ (analysis : FileAnalysis) => Option.guard (!·.isEmpty) analysis.defects]
  cases analyses.get? name with
  | none => rfl
  | some analysis =>
    rw [Option.bind_some, Option.map_some, Option.getD_some]
    cases analysis.defects <;> rfl

/-- The same engine with other plugins. -/
def withPlugins (e : Engine) (plugins : List Plugin) : Engine :=
  { e with registry.plugins := plugins }

/-- What an engine finds out about the files of a list. -/
def analysed (e : Engine) (provider : Provider) (names : List String) : Dict FileAnalysis :=
  .ofList (e.analyses provider (names.filter (e.selects none)))

theorem selects_none (e : Engine) (name : String) :
    e.selects none name = e.registry.canParse name := by
  unfold selects
  cases e.mode <;> exact Bool.and_true _

theorem get?_analysed (e : Engine) (provider : Provider) (names : List String) (name : String) :
    (e.analysed provider names).get? name =
      if name ∈ names ∧ e.registry.canParse name then
        (provider.content name).toOption.map fun content =>
          e.registry.analysis e.mode (name, content)
      else none := by
  have hvalues : ∀ entry ∈ e.analyses provider (names.filter (e.selects none)),
      ((provider.content entry.1).toOption.map fun content =>
        e.registry.analysis e.mode (entry.1, content)) = some entry.2 := by
    intro entry hentry
    obtain ⟨file, hfile, rfl⟩ := List.mem_map.mp hentry
    obtain ⟨name, _, hread⟩ := List.mem_filterMap.mp hfile
    obtain ⟨content, hcontent, rfl⟩ := Option.map_eq_some_iff.mp hread
    rw [hcontent, Option.map_some]
  unfold analysed
  rw [Dict.get?_ofList (f := fun name => (provider.content name).toOption.map fun content =>
    e.registry.analysis e.mode (name, content)) hvalues]
  have hmem : name ∈ Dict.keys (e.analyses provider (names.filter (e.selects none))) ↔
      (name ∈ names ∧ e.registry.canParse name) ∧ (provider.content name).toOption.isSome := by
    unfold Dict.keys analyses readable
    simp [selects_none, Option.isSome_iff_exists]
  by_cases hselected : name ∈ names ∧ e.registry.canParse name
  · rw [if_pos hselected]
    cases hcontent : (provider.content name).toOption with
    | none => rw [Option.map_none, ite_self]
    | some content => rw [if_pos (hmem.mpr ⟨hselected, by rw [hcontent]; rfl⟩)]
  · rw [if_neg hselected, if_neg fun h => hselected (hmem.mp h).1]

/-- The database of a project does not depend on the defects of its files. -/
theorem projectOf_undefective (analyses : Dict FileAnalysis) (db : ProjectDatabase) :
    projectOf (analyses.mapValues FileAnalysis.undefective) db = projectOf analyses db := by
  unfold Dict.mapValues
  induction analyses generalizing db with
  | nil => rfl
  | cons entry analyses ih =>
    simp only [List.map_cons, projectOf, ih]
    rfl

/-- Nor on the plugins. -/
theorem projectOf_withPlugins (e : Engine) (provider : Provider) (names : List String)
    (plugins : List Plugin) (db : ProjectDatabase) :
    projectOf ((e.withPlugins plugins).analysed provider names) db =
      projectOf (e.analysed provider names) db := by
  have hanalysis (file : ReadFile) :
      ((e.withPlugins plugins).registry.analysis e.mode file).undefective =
        (e.registry.analysis e.mode file).undefective := by
    have hparse : (e.withPlugins plugins).registry.parse = e.registry.parse := rfl
    unfold Registry.analysis Registry.analyze
    rw [hparse]
    cases e.registry.parse file.1 file.2 <;> rfl
  rw [← projectOf_undefective ((e.withPlugins plugins).analysed provider names),
    ← projectOf_undefective (e.analysed provider names)]
  unfold analysed
  rw [Dict.mapValues_ofList, Dict.mapValues_ofList]
  unfold Dict.mapValues analyses
  rw [List.map_map, List.map_map]
  congr 2
  exact List.map_congr_left fun file _ => Prod.ext rfl (hanalysis file)

/-- The defects that are filed under a name after all files have been analysed. -/
def filed (e : Engine) (duplicates : List Defect) (db : ProjectDatabase) (plugins : List Plugin)
    (name : String) : List Defect :=
  match e.mode with
  | .simple => []
  | .project =>
    (duplicates ++ plugins.flatMap (·.projectSegment db)).filter (·.fileName = name)

theorem defectsOf_reportOn (e : Engine) (plugins : List Plugin) (provider : Provider)
    (names : List String) (name : String) :
    ((e.withPlugins plugins).reportOn none provider names).defectsOf name =
      ((((e.withPlugins plugins).analysed provider names).get? name).map (·.defects)).getD [] ++
        e.filed (projectOf (e.analysed provider names) .empty).2
          (projectOf (e.analysed provider names) .empty).1 plugins name := by
  have hsorted : ((e.withPlugins plugins).analysed provider names).Sorted := Dict.sorted_ofList _
  have hreport : (e.withPlugins plugins).reportOn none provider names =
      (e.withPlugins plugins).reportOf none ((e.withPlugins plugins).analysed provider names) := rfl
  have hmode : (e.withPlugins plugins).mode = e.mode := rfl
  rw [hreport]
  unfold reportOf filed
  rw [hmode]
  cases e.mode with
  | simple =>
    dsimp only
    rw [defectsOf_fileReport hsorted, List.append_nil]
  | project =>
    have hall (fileName : String) : isKept none fileName = true := rfl
    dsimp only
    simp only [hall, List.filter_true]
    rw [Report.defectsOf_foldl_add, defectsOf_fileReport hsorted, projectOf_withPlugins,
      Registry.projectDefects_eq]
    rfl

/-! ### Isolation -/

/-- A report in which every plugin has a segment of its own. -/
structure Segmented (e : Engine) (provider : Provider) (names : List String)
    (duplicates : List Defect) (db : ProjectDatabase) (plugins : List Plugin) (report : Report) :
    Prop where
  /-- The segments of a file that can be parsed come in the order of the plugins. -/
  parsed : ∀ name ∈ names, e.registry.canParse name → ∀ content file,
    provider.content name = .ok content → e.registry.parse name content = .ok file →
    report.defectsOf name = plugins.flatMap (·.segment file) ++ e.filed duplicates db plugins name
  /-- One that cannot be parsed is shown to no plugin. -/
  unparsed : ∀ name ∈ names, e.registry.canParse name → ∀ content failure,
    provider.content name = .ok content → e.registry.parse name content = .error failure →
    report.defectsOf name = unparseable name failure :: e.filed duplicates db plugins name
  /-- Other names have what is filed under them. -/
  others : ∀ name, ¬ (name ∈ names ∧ e.registry.canParse name ∧
      ∃ content, provider.content name = .ok content) →
    report.defectsOf name = e.filed duplicates db plugins name

theorem segmented_reportOn (e : Engine) (provider : Provider) (names : List String)
    (plugins : List Plugin) :
    e.Segmented provider names (projectOf (e.analysed provider names) .empty).2
      (projectOf (e.analysed provider names) .empty).1 plugins
      ((e.withPlugins plugins).reportOn none provider names) := by
  have hanalysed (name : String) := (e.withPlugins plugins).get?_analysed provider names name
  have hcan : (e.withPlugins plugins).registry.canParse = e.registry.canParse := rfl
  have hparse : (e.withPlugins plugins).registry.parse = e.registry.parse := rfl
  rw [hcan] at hanalysed
  refine ⟨?_, ?_, ?_⟩
  · intro name hname hparser content file hcontent hfile
    have hdefects : ((e.withPlugins plugins).registry.analysis e.mode (name, content)).defects =
        plugins.flatMap (·.segment file) := by
      unfold Registry.analysis Registry.analyze
      rw [hparse, hfile]
      exact Registry.fileDefects_eq _ _
    rw [defectsOf_reportOn, hanalysed, if_pos ⟨hname, hparser⟩, hcontent, ← hdefects]
    rfl
  · intro name hname hparser content failure hcontent hfailure
    have hdefects : ((e.withPlugins plugins).registry.analysis e.mode (name, content)).defects =
        [unparseable name failure] := by
      unfold Registry.analysis Registry.analyze
      rw [hparse, hfailure]
    rw [defectsOf_reportOn, hanalysed, if_pos ⟨hname, hparser⟩, hcontent, ← List.singleton_append,
      ← hdefects]
    rfl
  · intro name hother
    have hnone : ((e.withPlugins plugins).analysed provider names).get? name = none := by
      rw [hanalysed]
      split
      · rename_i hselected
        cases hcontent : provider.content name with
        | error failure => rfl
        | ok content => exact absurd ⟨hselected.1, hselected.2, content, hcontent⟩ hother
      · rfl
    rw [defectsOf_reportOn, hnone]
    rfl

/-- What one plugin has filed lies between what those before and behind it have. -/
theorem filed_append_cons (e : Engine) (duplicates : List Defect) (db : ProjectDatabase)
    (before : List Plugin) (p : Plugin) (after : List Plugin) (name : String) :
    e.filed duplicates db (before ++ p :: after) name =
      e.filed duplicates db before name ++ e.filed [] db [p] name ++ e.filed [] db after name := by
  unfold filed
  cases e.mode with
  | simple => rfl
  | project => simp [List.flatMap_append, List.filter_append]

theorem filed_of_failure (hmode : e.mode = .project) {lint : ProjectLint} {failure : PluginFailure}
    (hlint : p.projectLint = some lint) (h : lint.defects db = .error failure) (name : String) :
    e.filed [] db [p] name =
      if name = projectFileName then [pluginFailure projectFileName p.id failure.reason]
      else [] := by
  have hsegment : p.projectSegment db = [pluginFailure projectFileName p.id failure.reason] := by
    unfold Plugin.projectSegment ProjectLint.segment
    rw [hlint, Option.map_some, h, Option.getD_some]
  unfold filed
  rw [hmode, List.flatMap_cons, hsegment]
  by_cases hname : name = projectFileName
  · rw [if_pos hname, hname]
    rfl
  · rw [if_neg hname]
    exact List.filter_eq_nil_iff.mpr fun d hd => by
      rw [List.mem_singleton.mp hd, decide_eq_true_iff]
      exact Ne.symm hname

end Engine

end PhpLint
