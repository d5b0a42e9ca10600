import PhpLint.Engine.Basic
import PhpLint.Plugin.Bundled
import PhpLint.Proofs.Engine.Entry
import PhpLint.Proofs.Engine.Key
import PhpLint.Proofs.Storage.Memory

/-!
A memory does not show in reports. Whatever it holds that can be read is the analysis that the key
stands for, so that what is found is what would be computed.
-/
namespace PhpLint

/-! ### Analyses -/

/-- The analysis of a file in a mode. -/
def Registry.analysis (r : Registry) (mode : LintMode) (file : ReadFile) : FileAnalysis :=
  r.analyze mode.collects file.1 file.2

theorem Registry.isSome_declarations (r : Registry) (mode : LintMode) (file : ReadFile) :
    (!mode.collects || (r.analysis mode file).declarations.isSome) = true := by
  cases mode <;> rfl

/-- The files in a list that can be read, with their contents. -/
def readable (provider : Provider) (files : List String) : List ReadFile :=
  files.filterMap fun file => (provider.content file).toOption.map (file, ·)

/-- What a memory holds are analyses of some files. -/
def MemoryStorage.Sound (r : Registry) (reads : List (LintMode × ReadFile)) (m : MemoryStorage) :
    Prop :=
  ∀ key entry, m.kept? key = some entry → ∃ mode file, (mode, file) ∈ reads ∧
    key = r.key mode file ∧ entry.analysis = r.analysis mode file

/-- All that is hashed on the way to the keys of some analyses. -/
def Registry.allMessages (r : Registry) (reads : List (LintMode × ReadFile)) : List (List UInt8) :=
  reads.flatMap fun (mode, file) => r.messages mode file

/-- A readable entry of a sound memory is the analysis of the file whose key it has. -/
theorem MemoryStorage.Sound.analysis_eq {r : Registry} {reads : List (LintMode × ReadFile)}
    {m : MemoryStorage} (h : m.Sound r reads)
    (hcollision : Sha256.NoCollision (r.allMessages reads)) {mode : LintMode} {file : ReadFile}
    (hmem : (mode, file) ∈ reads) {entry : CacheEntry}
    (hentry : m.kept? (r.key mode file) = some entry) : entry.analysis = r.analysis mode file := by
  obtain ⟨mode', file', hmem', hkey, hanalysis⟩ := h _ _ hentry
  have hsub (mode : LintMode) (file : ReadFile) (hmem : (mode, file) ∈ reads) :
      r.messages mode file ⊆ r.allMessages reads :=
    fun a ha => List.mem_flatMap.mpr ⟨(mode, file), hmem, ha⟩
  have hboth := hcollision.mono (List.append_subset.mpr ⟨hsub mode file hmem, hsub mode' file' hmem'⟩)
  obtain ⟨rfl, -, rfl⟩ := Registry.key_inj hboth hkey
  exact hanalysis

/-! ### What analyses do to a memory -/

/-- What it takes for analyses to be found again. -/
structure Registry.Keeps (r : Registry) (reads : List (LintMode × ReadFile)) : Prop where
  fits : ∀ mode file, (mode, file) ∈ reads → r.FitsWords file.1 file.2
  collision : Sha256.NoCollision (r.allMessages reads)

namespace Engine

/-- What an engine does when it analyses some files one after the other. -/
structure Effect (e : Engine) (reads : List (LintMode × ReadFile)) (files : List ReadFile)
    (stats : RunStats) (m m' : MemoryStorage) : Prop where
  sound : m'.Sound e.registry reads
  locks : m'.locks = m.locks
  /-- What can be read stays readable. -/
  grows : ∀ key, (m.kept? key).isSome → (m'.kept? key).isSome
  /-- If nothing is locked, everything can be read afterwards. -/
  kept : m.locks = [] → ∀ file ∈ files, (m'.kept? (e.registry.key e.mode file)).isSome
  total : stats.total = files.length
  counted : stats.total = stats.parsed + stats.cacheHits
  refreshed : e.refreshCache → stats.cacheHits = 0
  /-- What could be read before is not parsed. -/
  found : e.refreshCache = false →
    (∀ file ∈ files, (m.kept? (e.registry.key e.mode file)).isSome) → stats.parsed = 0

variable {e : Engine} {reads : List (LintMode × ReadFile)} {m : MemoryStorage}

theorem Effect.nil (h : m.Sound e.registry reads) : e.Effect reads [] .zero m m where
  sound := h
  locks := rfl
  grows _ := id
  kept _ _ hmem := by cases hmem
  total := rfl
  counted := rfl
  refreshed _ := rfl
  found _ _ := rfl

theorem Effect.append {files files' : List ReadFile} {stats stats' : RunStats}
    {m' m'' : MemoryStorage} (h : e.Effect reads files stats m m')
    (h' : e.Effect reads files' stats' m' m'') :
    e.Effect reads (files ++ files') (stats.add stats') m m'' where
  sound := h'.sound
  locks := h'.locks.trans h.locks
  grows key hkey := h'.grows key (h.grows key hkey)
  kept hlocks file hmem := by
    rcases List.mem_append.mp hmem with hmem | hmem
    · exact h'.grows _ (h.kept hlocks file hmem)
    · exact h'.kept (h.locks.trans hlocks) file hmem
  total := by
    rw [List.length_append, ← h.total, ← h'.total]
    rfl
  counted := by
    have hfirst := h.counted
    have hsecond := h'.counted
    simp only [RunStats.add]
    omega
  refreshed hrefresh := by
    simp only [RunStats.add, h.refreshed hrefresh, h'.refreshed hrefresh]
  found hrefresh hall := by
    have hfirst := h.found hrefresh fun file hmem => hall file (List.mem_append_left _ hmem)
    have hsecond := h'.found hrefresh fun file hmem =>
      h.grows _ (hall file (List.mem_append_right _ hmem))
    simp only [RunStats.add, hfirst, hsecond]

/-! ### One file -/

/-- Keeping an entry changes what can be read under its key, unless the key is locked. -/
theorem kept?_keep {key : String} {entry : CacheEntry} (h : entry.analysis.FitsWords)
    (key' : String) : (MemoryStorage.storage.keep key entry m).kept? key' =
      if key ∉ m.locks ∧ key' = key then some entry else m.kept? key' := by
  rw [MemoryStorage.keep_eq]
  by_cases hlocked : key ∈ m.locks
  · rw [if_pos hlocked, if_neg fun hboth => hboth.1 hlocked]
  · rw [if_neg hlocked]
    unfold MemoryStorage.kept?
    by_cases hkey : key' = key
    · rw [if_pos ⟨hlocked, hkey⟩, hkey, MemoryStorage.get?_insert_self, Option.bind_some,
        CacheEntry.ofBytes?_toBytes h]
    · rw [if_neg fun hboth => hkey hboth.2, MemoryStorage.get?_insert_of_ne (by simpa using hkey)]

variable {file : ReadFile}

/-- A computed analysis is kept, so that it is found again if nothing is locked. -/
private theorem effect_keep (hkeeps : e.registry.Keeps reads) (hmem : (e.mode, file) ∈ reads)
    (hsound : m.Sound e.registry reads)
    (habsent : e.refreshCache = false → m.kept? (e.registry.key e.mode file) = none) :
    e.Effect reads [file] (RunStats.zero.count false) m
      (MemoryStorage.storage.keep (e.registry.key e.mode file)
        ⟨file.1, e.registry.analysis e.mode file⟩ m) := by
  have hfits := (hkeeps.fits e.mode file hmem).analyze_fitsWords e.mode.collects
  have hentry := fun key => @kept?_keep m (e.registry.key e.mode file)
    ⟨file.1, e.registry.analysis e.mode file⟩ hfits key
  constructor
  · intro key entry hkey
    rw [hentry] at hkey
    split_ifs at hkey with hnew
    · cases hkey
      exact ⟨e.mode, file, hmem, hnew.2, rfl⟩
    · exact hsound key entry hkey
  · exact m.keep_locks _ _
  · intro key hkey
    rw [hentry]
    split_ifs
    · rfl
    · exact hkey
  · intro hlocks file' hfile'
    have hfree : e.registry.key e.mode file ∉ m.locks := by
      rw [hlocks]
      exact List.not_mem_nil
    rw [List.mem_singleton.mp hfile', hentry, if_pos ⟨hfree, rfl⟩]
    rfl
  · rfl
  · rfl
  · intro _
    rfl
  · intro hrefresh hall
    have hsome := hall file List.mem_cons_self
    rw [habsent hrefresh] at hsome
    cases hsome

private theorem effect_found (hsound : m.Sound e.registry reads) (hrefresh : e.refreshCache = false)
    (hsome : (m.kept? (e.registry.key e.mode file)).isSome) :
    e.Effect reads [file] (RunStats.zero.count true) m m where
  sound := hsound
  locks := rfl
  grows _ := id
  kept _ file' hfile' := by
    rw [List.mem_singleton.mp hfile']
    exact hsome
  total := rfl
  counted := rfl
  refreshed h := by
    rw [hrefresh] at h
    cases h
  found _ _ := rfl

/-- An analysis that is found is the one that would be computed. -/
theorem analyze_effect (hkeeps : e.registry.Keeps reads) (hmem : (e.mode, file) ∈ reads)
    (hsound : m.Sound e.registry reads) :
    ∃ hit m', e.analyze MemoryStorage.storage file.1 file.2 m =
      ((e.registry.analysis e.mode file, hit), m') ∧
      e.Effect reads [file] (RunStats.zero.count hit) m m' := by
  have hcomputed (habsent : e.refreshCache = false →
        m.kept? (e.registry.key e.mode file) = none)
      (h : e.restored? MemoryStorage.storage (e.registry.key e.mode file) m = (none, m)) :
      ∃ hit m', e.analyze MemoryStorage.storage file.1 file.2 m =
        ((e.registry.analysis e.mode file, hit), m') ∧
        e.Effect reads [file] (RunStats.zero.count hit) m m' := by
    refine ⟨false, _, ?_, effect_keep hkeeps hmem hsound habsent⟩
    unfold Registry.key at h
    simp only [analyze, h]
    rfl
  cases hrefresh : e.refreshCache with
  | true =>
    refine hcomputed (fun h => by rw [hrefresh] at h; cases h) ?_
    rw [restored?, hrefresh]
    rfl
  | false =>
    cases hentry : m.kept? (e.registry.key e.mode file) with
    | none =>
      refine hcomputed (fun _ => hentry) ?_
      rw [restored?, hrefresh, MemoryStorage.storage_kept?, hentry]
      rfl
    | some entry =>
      have hanalysis := hsound.analysis_eq hkeeps.collision hmem hentry
      have hrestored : e.restored? MemoryStorage.storage (e.registry.key e.mode file) m =
          (some (e.registry.analysis e.mode file), m) := by
        rw [restored?, hrefresh, MemoryStorage.storage_kept?, hentry]
        change (Option.filter _ (some entry.analysis), m) = _
        rw [hanalysis, Option.filter_some, if_pos (e.registry.isSome_declarations e.mode file)]
      refine ⟨true, m, ?_, effect_found hsound hrefresh (by rw [hentry]; rfl)⟩
      unfold Registry.key at hrestored
      simp only [analyze, hrestored]

/-! ### Runs -/

private theorem count_eq_add (stats : RunStats) (hit : Bool) :
    stats.count hit = stats.add (RunStats.zero.count hit) := by
  cases hit <;> rfl

private theorem add_assoc (a b c : RunStats) : (a.add b).add c = a.add (b.add c) := by
  simp [RunStats.add, Nat.add_assoc]

/-- The analyses of the files of a list that can be read. -/
def analyses (e : Engine) (provider : Provider) (files : List String) :
    List (String × FileAnalysis) :=
  (readable provider files).map fun file => (file.1, e.registry.analysis e.mode file)

/-- Files are analysed one after the other, and what is found does not show. -/
theorem analyzeFiles_effect (hkeeps : e.registry.Keeps reads) (provider : Provider)
    (files : List String) (hmem : ∀ file ∈ readable provider files, (e.mode, file) ∈ reads)
    (hsound : m.Sound e.registry reads) (stats : RunStats) :
    ∃ more m', e.analyzeFiles MemoryStorage.storage provider files stats m =
      ((e.analyses provider files, stats.add more), m') ∧
      e.Effect reads (readable provider files) more m m' := by
  induction files generalizing m stats with
  | nil => exact ⟨.zero, m, rfl, .nil hsound⟩
  | cons name files ih =>
    cases hcontent : provider.content name with
    | error failure =>
      have hskip : readable provider (name :: files) = readable provider files := by
        rw [readable, List.filterMap_cons, hcontent]
        rfl
      rw [hskip] at hmem
      obtain ⟨more, m', heq, heffect⟩ := ih hmem hsound stats
      refine ⟨more, m', ?_, hskip ▸ heffect⟩
      rw [analyzeFiles, hcontent, analyses, hskip]
      exact heq
    | ok content =>
      have hread : readable provider (name :: files) = (name, content) :: readable provider files := by
        rw [readable, List.filterMap_cons, hcontent]
        rfl
      rw [hread] at hmem
      obtain ⟨hit, m₁, hone, hfirst⟩ := analyze_effect hkeeps (hmem _ List.mem_cons_self) hsound
      obtain ⟨more, m', heq, hrest⟩ := ih (fun file hfile => hmem file (List.mem_cons_of_mem _ hfile))
        hfirst.sound (stats.count hit)
      refine ⟨(RunStats.zero.count hit).add more, m', ?_, hread ▸ hfirst.append hrest⟩
      simp only [analyzeFiles, hcontent, hone, heq]
      rw [count_eq_add, add_assoc, analyses, analyses, hread, List.map_cons]

/-- An engine without a storage computes every analysis. -/
theorem analyzeFiles_none (e : Engine) (provider : Provider) (files : List String)
    (stats : RunStats) :
    (e.analyzeFiles Storage.none provider files stats ()).1.1 = e.analyses provider files := by
  induction files generalizing stats with
  | nil => rfl
  | cons name files ih =>
    have hcomputed (content : ByteArray) : e.analyze Storage.none name content () =
        ((e.registry.analysis e.mode (name, content), false), ()) := by
      cases hrefresh : e.refreshCache <;> simp [analyze, restored?, hrefresh, Storage.entry?,
        Storage.none, Registry.analysis]
    cases hcontent : provider.content name with
    | error failure =>
      rw [analyzeFiles, hcontent, analyses, readable, List.filterMap_cons, hcontent]
      exact ih stats
    | ok content =>
      simp only [analyzeFiles, hcontent, hcomputed]
      rw [ih, analyses, analyses, readable, readable, List.filterMap_cons, hcontent]
      rfl

/-- The files that a run reads. -/
def files (e : Engine) (only : Option (List String)) (provider : Provider) : List ReadFile :=
  match provider.list with
  | .error _ => []
  | .ok names => readable provider (names.filter (e.selects only))

/-- A run reports with a memory what it reports without. -/
theorem run_effect (hkeeps : e.registry.Keeps reads) (only : Option (List String))
    (provider : Provider) (hmem : ∀ file ∈ e.files only provider, (e.mode, file) ∈ reads)
    (hsound : m.Sound e.registry reads) :
    ∃ stats m', e.run MemoryStorage.storage only provider m =
      ((e.run Storage.none only provider ()).1.map (fun run => { run with stats }), m') ∧
      e.Effect reads (e.files only provider) stats m m' := by
  cases hlist : provider.list with
  | error failure =>
    have hnothing : e.files only provider = [] := by
      rw [files, hlist]
    refine ⟨.zero, m, ?_, hnothing ▸ .nil hsound⟩
    rw [run, run, hlist]
    rfl
  | ok names =>
    have hfiles : e.files only provider = readable provider (names.filter (e.selects only)) := by
      rw [files, hlist]
    rw [hfiles] at hmem
    obtain ⟨stats, m', heq, heffect⟩ := analyzeFiles_effect hkeeps provider _ hmem hsound .zero
    have hzero : RunStats.zero.add stats = stats := by simp [RunStats.add, RunStats.zero]
    have hplain := e.analyzeFiles_none provider (names.filter (e.selects only)) .zero
    refine ⟨stats, m', ?_, hfiles ▸ heffect⟩
    simp only [run, hlist, heq, hzero, hplain, Except.map]

/-- The files that an incremental run reads, in both states. -/
def incrementalFiles (e : Engine) (old new : Provider) (changed : List String) : List ReadFile :=
  match old.list with
  | .error _ => []
  | .ok _ => e.files (some changed) old ++ e.files (some changed) new

/-- An incremental run reports with a memory what it reports without. -/
theorem incrementalReport_effect (hkeeps : e.registry.Keeps reads) (old new : Provider)
    (changed : List String)
    (hmem : ∀ file ∈ e.incrementalFiles old new changed, (e.mode, file) ∈ reads)
    (hsound : m.Sound e.registry reads) :
    ∃ stats m', e.incrementalReport MemoryStorage.storage old new changed m =
      ((e.incrementalReport Storage.none old new changed ()).1.map
        (fun run => { run with stats }), m') ∧
      e.Effect reads (e.incrementalFiles old new changed) stats m m' := by
  cases hlist : old.list with
  | error failure =>
    have hnothing : e.incrementalFiles old new changed = [] := by
      rw [incrementalFiles, hlist]
    refine ⟨.zero, m, ?_, hnothing ▸ .nil hsound⟩
    simp only [incrementalReport, run, hlist]
    rfl
  | ok names =>
    have hfiles : e.incrementalFiles old new changed =
        e.files (some changed) old ++ e.files (some changed) new := by
      rw [incrementalFiles, hlist]
    rw [hfiles] at hmem
    obtain ⟨stats, m₁, hold, hfirst⟩ := run_effect hkeeps (some changed) old
      (fun file hfile => hmem file (List.mem_append_left _ hfile)) hsound
    obtain ⟨stats', m', hnew, hsecond⟩ := run_effect hkeeps (some changed) new
      (fun file hfile => hmem file (List.mem_append_right _ hfile)) hfirst.sound
    refine ⟨stats.add stats', m', ?_, hfiles ▸ hfirst.append hsecond⟩
    have hbefore : ∃ before, e.run Storage.none (some changed) old () = (.ok before, ()) := by
      simp only [run, hlist]
      exact ⟨_, rfl⟩
    obtain ⟨before, hbefore⟩ := hbefore
    simp only [incrementalReport, hold, hnew, hbefore, Except.map]
    cases e.run Storage.none (some changed) new () with
    | mk after s => cases after <;> rfl

end Engine

/-! ### Histories -/

/-- What an engine is asked for. -/
inductive Query where
  | report (provider : Provider)
  | incremental (old new : Provider) (changed : List String)

/-- A run of an engine, while others hold some locks. -/
structure Request where
  mode : LintMode
  refreshCache : Bool
  query : Query
  locked : List String

namespace Request

def engine (r : Registry) (q : Request) : Engine :=
  ⟨r, q.mode, q.refreshCache⟩

def run {σ : Type} (r : Registry) (q : Request) (storage : Storage σ) (s : σ) :
    Except ProviderError Run × σ :=
  match q.query with
  | .report provider => (q.engine r).report storage provider s
  | .incremental old new changed => (q.engine r).incrementalReport storage old new changed s

/-- The files that a run reads. -/
def files (r : Registry) (q : Request) : List ReadFile :=
  match q.query with
  | .report provider => (q.engine r).files none provider
  | .incremental old new changed => (q.engine r).incrementalFiles old new changed

/-- A request is answered with a memory as it is without. -/
theorem run_effect {r : Registry} {reads : List (LintMode × ReadFile)} {m : MemoryStorage}
    (hkeeps : r.Keeps reads) (q : Request) (hmem : ∀ file ∈ q.files r, (q.mode, file) ∈ reads)
    (hsound : m.Sound r reads) :
    ∃ stats m', q.run r MemoryStorage.storage m =
      ((q.run r Storage.none ()).1.map (fun run => { run with stats }), m') ∧
      (q.engine r).Effect reads (q.files r) stats m m' := by
  obtain ⟨mode, refreshCache, query, locked⟩ := q
  cases query with
  | report provider => exact Engine.run_effect hkeeps none provider hmem hsound
  | incremental old new changed =>
    exact Engine.incrementalReport_effect hkeeps old new changed hmem hsound

end Request

/-- The answers to requests one after the other, while the memory is shared. -/
def answers (r : Registry) : List Request → MemoryStorage → List (Except ProviderError Run)
  | [], _ => []
  | q :: qs, m =>
    let (answer, m) := q.run r MemoryStorage.storage { m with locks := q.locked }
    answer :: answers r qs m

/-- All analyses that requests ask for. -/
def allReads (r : Registry) (history : List Request) : List (LintMode × ReadFile) :=
  history.flatMap fun q => (q.files r).map (q.mode, ·)

/-- What an answer is that comes after the answers to earlier requests. -/
structure Request.Answered (r : Registry) (earlier : List Request) (q : Request)
    (answer : Except ProviderError Run) : Prop where
  /-- The report is that of an engine without a storage. -/
  report : answer.map Run.report = (q.run r Storage.none ()).1.map Run.report
  counted : ∀ run, answer = .ok run → run.stats.total = run.stats.parsed + run.stats.cacheHits
  refreshed : q.refreshCache → ∀ run, answer = .ok run → run.stats.cacheHits = 0
  /-- Nothing is parsed if nothing was locked when the same files were read before. -/
  repeated : q.refreshCache = false →
    (∃ p ∈ earlier, p.mode = q.mode ∧ p.locked = [] ∧ q.files r ⊆ p.files r) →
      ∀ run, answer = .ok run → run.stats.parsed = 0

/-- What a memory holds after some requests. -/
structure MemoryStorage.Holds (r : Registry) (reads : List (LintMode × ReadFile))
    (earlier : List Request) (m : MemoryStorage) : Prop where
  sound : m.Sound r reads
  kept : ∀ p ∈ earlier, p.locked = [] → ∀ file ∈ p.files r, (m.kept? (r.key p.mode file)).isSome

variable {r : Registry} {reads : List (LintMode × ReadFile)} {earlier : List Request}
  {m : MemoryStorage}

/-- One more request is answered as it should be, and the memory goes on to hold what it should. -/
theorem MemoryStorage.Holds.next (hkeeps : r.Keeps reads) (h : m.Holds r reads earlier)
    (q : Request) (hmem : ∀ file ∈ q.files r, (q.mode, file) ∈ reads) :
    ∃ answer m', q.run r storage { m with locks := q.locked } = (answer, m') ∧
      q.Answered r earlier answer ∧ m'.Holds r reads (earlier ++ [q]) := by
  have hsound : Sound r reads { m with locks := q.locked } := h.sound
  obtain ⟨stats, m', hrun, heffect⟩ := q.run_effect hkeeps hmem hsound
  refine ⟨_, m', hrun, ?_, ?_⟩
  · have hstats (run : Run) : (q.run r Storage.none ()).1.map (fun run => { run with stats }) =
        .ok run → run.stats = stats := by
      intro heq
      cases hplain : (q.run r Storage.none ()).1 with
      | error failure => rw [hplain] at heq; cases heq
      | ok plain => rw [hplain] at heq; cases heq; rfl
    constructor
    · cases (q.run r Storage.none ()).1 <;> rfl
    · intro run heq
      rw [hstats run heq]
      exact heffect.counted
    · intro hrefresh run heq
      rw [hstats run heq]
      exact heffect.refreshed hrefresh
    · rintro hrefresh ⟨p, hp, hmode, hfree, hsub⟩ run heq
      rw [hstats run heq]
      apply heffect.found hrefresh
      intro file hfile
      change (m.kept? (r.key q.mode file)).isSome
      rw [← hmode]
      exact h.kept p hp hfree file (hsub hfile)
  · refine ⟨heffect.sound, ?_⟩
    intro p hp hfree file hfile
    rcases List.mem_append.mp hp with hp | hp
    · exact heffect.grows _ (h.kept p hp hfree file hfile)
    · rw [List.mem_singleton.mp hp] at hfree hfile ⊢
      exact heffect.kept hfree file hfile

theorem answers_answered (hkeeps : r.Keeps reads) {before after : List Request} {q : Request}
    (hreads : allReads r (before ++ q :: after) ⊆ reads) (h : m.Holds r reads earlier) :
    ∃ answer, (answers r (before ++ q :: after) m)[before.length]? = some answer ∧
      q.Answered r (earlier ++ before) answer := by
  have hmem (p : Request) (hp : p ∈ before ++ q :: after) :
      ∀ file ∈ p.files r, (p.mode, file) ∈ reads := fun file hfile =>
    hreads (List.mem_flatMap.mpr ⟨p, hp, List.mem_map_of_mem hfile⟩)
  induction before generalizing earlier m with
  | nil =>
    obtain ⟨answer, m', hrun, hanswered, _⟩ := h.next hkeeps q (hmem q List.mem_cons_self)
    refine ⟨answer, ?_, by rwa [List.append_nil]⟩
    rw [List.nil_append, answers, hrun]
    rfl
  | cons p before ih =>
    obtain ⟨first, m', hrun, _, hholds⟩ := h.next hkeeps p (hmem p List.mem_cons_self)
    obtain ⟨answer, hget, hanswered⟩ := ih
      (fun x hx => hreads (List.mem_flatMap.mpr (by
        obtain ⟨p', hp', hx⟩ := List.mem_flatMap.mp hx
        exact ⟨p', List.mem_cons_of_mem _ hp', hx⟩)))
      hholds (fun p' hp' => hmem p' (List.mem_cons_of_mem _ hp'))
    refine ⟨answer, ?_, by rwa [List.append_assoc, List.singleton_append] at hanswered⟩
    rw [List.cons_append, answers, hrun]
    exact hget

theorem length_answers (history : List Request) (m : MemoryStorage) :
    (answers r history m).length = history.length := by
  induction history generalizing m with
  | nil => rfl
  | cons q history ih => rw [answers, List.length_cons, List.length_cons, ih]

/--
Engines of both modes that share a memory answer every request as an engine without a storage
does, whatever others lock, if the memory holds nothing to begin with that can be read.
-/
theorem answers_transparent {history : List Request}
    (hfits : ∀ q ∈ history, ∀ file ∈ q.files r, r.FitsWords file.1 file.2)
    (hcollision : Sha256.NoCollision (r.allMessages (allReads r history)))
    (hbroken : ∀ key data, m.get? CacheEntry.domain key = some data →
      CacheEntry.ofBytes? data = none) :
    (answers r history m).length = history.length ∧
    ∀ before q after, history = before ++ q :: after →
      ∃ answer, (answers r history m)[before.length]? = some answer ∧
        q.Answered r before answer := by
  have hkeeps : r.Keeps (allReads r history) := by
    refine ⟨?_, hcollision⟩
    intro mode file hmem
    obtain ⟨q, hq, hfile⟩ := List.mem_flatMap.mp hmem
    obtain ⟨file', hfile', heq⟩ := List.mem_map.mp hfile
    cases heq
    exact hfits q hq file hfile'
  have hholds : m.Holds r (allReads r history) [] := by
    refine ⟨?_, fun p hp => by cases hp⟩
    intro key entry hentry
    obtain ⟨data, hdata, hread⟩ := Option.bind_eq_some_iff.mp hentry
    rw [hbroken key data hdata] at hread
    cases hread
  refine ⟨length_answers history m, ?_⟩
  rintro before q after rfl
  obtain ⟨answer, hget, hanswered⟩ := answers_answered hkeeps (List.Subset.refl _) hholds
  exact ⟨answer, hget, by rwa [List.nil_append] at hanswered⟩

/-- A file that is no text is reported at a line that fits. -/
theorem Registry.fitsWords_invalid_utf8 :
    (⟨[("php", .php)], []⟩ : Registry).FitsWords "a.php" ⟨#[0xff]⟩ := by
  set r : Registry := ⟨[("php", .php)], []⟩
  have hfails : (r.parse "a.php" ⟨#[0xff]⟩).toOption.isNone := by decide +kernel
  have hline : (((r.parse "a.php" ⟨#[0xff]⟩).map fun _ => 0).tryCatch
      fun failure => .ok failure.line).toOption = some 1 := by decide +kernel
  constructor
  · intro file hparse
    rw [hparse] at hfails
    cases hfails
  · intro failure hparse
    rw [hparse] at hline
    have hline : failure.line = 1 := Option.some.inj hline
    rw [hline]
    decide

/-- A file that is no text, and a memory with an entry that cannot be read. -/
theorem answers_transparent_invalid_utf8 :
    let r : Registry := ⟨[("php", .php)], []⟩
    let provider := MemoryFiles.provider ⟨[("a.php", ⟨#[0xff]⟩)], .empty⟩
    let q : Request := ⟨.project, false, .report provider, []⟩
    let m : MemoryStorage := ⟨[(("lint", "a"), ⟨#[0x21]⟩)], []⟩
    (answers r [q, q] m).length = 2 ∧
    ∀ before q' after, [q, q] = before ++ q' :: after →
      ∃ answer, (answers r [q, q] m)[before.length]? = some answer ∧
        q'.Answered r before answer := by
  intro r provider q m
  have hfiles : q.files r = [("a.php", ⟨#[0xff]⟩)] := rfl
  refine answers_transparent ?_ ?_ ?_
  · intro q' hq' file hfile
    have hq : q' = q := by simpa using hq'
    rw [hq, hfiles, List.mem_singleton] at hfile
    rw [hfile]
    exact Registry.fitsWords_invalid_utf8
  · have honce : Sha256.NoCollision (r.messages .project ("a.php", ⟨#[0xff]⟩)) := by
      apply Sha256.noCollision_of_nodup
      decide +kernel
    refine honce.mono ?_
    intro message hmessage
    obtain ⟨read, hread, hmessage⟩ := List.mem_flatMap.mp hmessage
    have hread : read = (.project, ("a.php", ⟨#[0xff]⟩)) := by
      simpa [allReads, hfiles] using hread
    rwa [hread] at hmessage
  · intro key data hdata
    have hdata : data = ⟨#[0x21]⟩ := by
      obtain ⟨before, after, heq, _⟩ := List.lookup_eq_some_iff.mp hdata
      have hmem : ((CacheEntry.domain, key), data) ∈ m.entries :=
        heq ▸ List.mem_append_right before List.mem_cons_self
      exact (Prod.mk.inj (List.mem_singleton.mp hmem)).2
    rw [hdata]
    decide +kernel

end PhpLint
