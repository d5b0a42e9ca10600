import PhpLint.Proofs.Engine.Transparency

/-!
What a run does to a memory that others use, too. A file whose analysis is not found is parsed, and
its analysis is kept unless its key is locked. Nothing else in the memory changes.
-/
namespace PhpLint

/-- What an engine did with a file that it came to. -/
structure Turn where
  file : ReadFile
  analysis : FileAnalysis
  /-- Whether the analysis was found in the storage. -/
  hit : Bool

/-- The form in which the analysis is kept. -/
def Turn.entry (turn : Turn) : CacheEntry :=
  ⟨turn.file.1, turn.analysis⟩

/-- The counts of some turns. -/
def RunStats.ofTurns (turns : List Turn) : RunStats :=
  ⟨turns.length, turns.countP (!·.hit), turns.countP (·.hit)⟩

/-! ### Runs, turn by turn -/

namespace Engine

variable {σ : Type} {e : Engine} {storage : Storage σ} {files : List ReadFile} {s : σ}

/-- What an engine does with files, one after the other. -/
def turns (e : Engine) (storage : Storage σ) : List ReadFile → σ → List Turn × σ
  | [], s => ([], s)
  | file :: files, s =>
    let ((analysis, hit), s) := e.analyze storage file.1 file.2 s
    let (rest, s) := e.turns storage files s
    (⟨file, analysis, hit⟩ :: rest, s)

theorem turns_append (e : Engine) (storage : Storage σ) (files files' : List ReadFile) (s : σ) :
    e.turns storage (files ++ files') s =
      ((e.turns storage files s).1 ++ (e.turns storage files' (e.turns storage files s).2).1,
        (e.turns storage files' (e.turns storage files s).2).2) := by
  induction files generalizing s with
  | nil => rfl
  | cons file files ih => simp only [List.cons_append, turns, ih]

theorem count_add_ofTurns (stats : RunStats) (turn : Turn) (turns : List Turn) :
    (stats.count turn.hit).add (.ofTurns turns) = stats.add (.ofTurns (turn :: turns)) := by
  unfold RunStats.ofTurns RunStats.count RunStats.add
  rw [List.countP_cons, List.countP_cons, List.length_cons]
  cases turn.hit <;> simp <;> omega

theorem ofTurns_append (turns turns' : List Turn) :
    RunStats.ofTurns (turns ++ turns') = (RunStats.ofTurns turns).add (.ofTurns turns') := by
  unfold RunStats.ofTurns
  rw [List.countP_append, List.countP_append, List.length_append]
  rfl

/-- The files that can be read are analysed turn by turn. -/
theorem analyzeFiles_eq_turns (e : Engine) (storage : Storage σ) (provider : Provider)
    (names : List String) (stats : RunStats) (s : σ) :
    e.analyzeFiles storage provider names stats s =
      (((e.turns storage (readable provider names) s).1.map fun turn =>
          (turn.file.1, turn.analysis),
        stats.add (.ofTurns (e.turns storage (readable provider names) s).1)),
        (e.turns storage (readable provider names) s).2) := by
  induction names generalizing stats s with
  | nil => rfl
  | cons name names ih =>
    rw [analyzeFiles, readable, List.filterMap_cons]
    cases provider.content name with
    | error failure => exact ih stats s
    | ok content =>
      dsimp only [Except.toOption, Option.map]
      rw [turns, ih, ← count_add_ofTurns, List.map_cons]
      rfl

theorem run_eq_turns (e : Engine) (storage : Storage σ) (only : Option (List String))
    (provider : Provider) (s : σ) :
    (e.run storage only provider s).2 = (e.turns storage (e.files only provider) s).2 ∧
      ∀ run, (e.run storage only provider s).1 = .ok run →
        run.stats = .ofTurns (e.turns storage (e.files only provider) s).1 := by
  unfold run files
  cases provider.list with
  | error failure => exact ⟨rfl, nofun⟩
  | ok names =>
    dsimp only
    rw [analyzeFiles_eq_turns]
    refine ⟨rfl, fun run hrun => ?_⟩
    rw [← Except.ok.inj hrun]
    simp [RunStats.add, RunStats.zero]

end Engine

namespace Request

variable {σ : Type}

/-- What an engine does with the files of a request. -/
def turns (r : Registry) (q : Request) (storage : Storage σ) (s : σ) : List Turn × σ :=
  (q.engine r).turns storage (q.files r) s

/-- What a run leaves, and what it counts, is what its turns leave and count. -/
theorem run_eq_turns (r : Registry) (q : Request) (storage : Storage σ) (s : σ) :
    (q.run r storage s).2 = (q.turns r storage s).2 ∧
      ∀ run, (q.run r storage s).1 = .ok run →
        run.stats = .ofTurns (q.turns r storage s).1 := by
  obtain ⟨mode, refreshCache, query, locked⟩ := q
  cases query with
  | report provider => exact Engine.run_eq_turns _ storage none provider s
  | incremental old new changed =>
    set e : Engine := ⟨r, mode, refreshCache⟩ with he
    change (e.incrementalReport storage old new changed s).2 =
        (e.turns storage (e.incrementalFiles old new changed) s).2 ∧
      ∀ run, (e.incrementalReport storage old new changed s).1 = .ok run →
        run.stats = .ofTurns (e.turns storage (e.incrementalFiles old new changed) s).1
    obtain ⟨hold, holdStats⟩ := e.run_eq_turns storage (some changed) old s
    unfold Engine.incrementalReport Engine.incrementalFiles
    cases hlist : old.list with
    | error failure =>
      have hrun : e.run storage (some changed) old s = (.error failure, s) := by
        rw [Engine.run, hlist]
      rw [hrun]
      exact ⟨rfl, fun _ hrun => by cases hrun⟩
    | ok names =>
      dsimp only
      rw [Engine.turns_append, ← hold, Engine.ofTurns_append]
      generalize hbefore : e.run storage (some changed) old s = before at holdStats ⊢
      obtain ⟨result, s₁⟩ := before
      cases result with
      | error failure =>
        rw [Engine.run, hlist] at hbefore
        cases (Prod.mk.inj hbefore).1
      | ok before =>
        obtain ⟨hnew, hnewStats⟩ := e.run_eq_turns storage (some changed) new s₁
        dsimp only
        rw [← hnew]
        generalize e.run storage (some changed) new s₁ = after at hnewStats ⊢
        obtain ⟨result, s₂⟩ := after
        cases result with
        | error failure => exact ⟨rfl, fun _ hrun => by cases hrun⟩
        | ok after =>
          refine ⟨rfl, fun run hrun => ?_⟩
          rw [← Except.ok.inj hrun, ← holdStats before rfl, ← hnewStats after rfl]

end Request

/-! ### What turns do to a memory -/

/-- Only the entry of the key changes, and only if the key is free. -/
theorem MemoryStorage.get?_keep (m : MemoryStorage) (key : String) (entry : CacheEntry)
    (domain' key' : String) : (storage.keep key entry m).get? domain' key' =
      if domain' = CacheEntry.domain ∧ key' = key ∧ key ∉ m.locks then some entry.toBytes
      else m.get? domain' key' := by
  rw [keep_eq]
  by_cases hlocked : key ∈ m.locks
  · rw [if_pos hlocked, if_neg fun h => h.2.2 hlocked]
  rw [if_neg hlocked]
  by_cases hsame : (domain', key') = (CacheEntry.domain, key)
  · obtain ⟨rfl, rfl⟩ := Prod.mk.inj hsame
    rw [get?_insert_self, if_pos ⟨rfl, rfl, hlocked⟩]
  · rw [get?_insert_of_ne hsame, if_neg fun h => hsame (by rw [h.1, h.2.1])]

namespace Engine

variable {e : Engine} {files : List ReadFile} {m : MemoryStorage} {domain key : String}

/-- An analysis is found, and the memory stays as it is, or it is computed and kept. -/
theorem analyze_cases (e : Engine) (file : ReadFile) (m : MemoryStorage) :
    (∃ analysis, e.analyze MemoryStorage.storage file.1 file.2 m = ((analysis, true), m)) ∨
      e.analyze MemoryStorage.storage file.1 file.2 m =
        ((e.registry.analysis e.mode file, false),
          MemoryStorage.storage.keep (e.registry.key e.mode file)
            ⟨file.1, e.registry.analysis e.mode file⟩ m) := by
  have hrestored : (e.restored? MemoryStorage.storage (e.registry.key e.mode file) m).2 = m := by
    unfold restored?
    split_ifs
    · rfl
    · rw [MemoryStorage.storage_kept?]
  unfold Registry.key at hrestored ⊢
  unfold analyze
  dsimp only
  generalize e.restored? MemoryStorage.storage _ m = restored at hrestored ⊢
  obtain ⟨found, m'⟩ := restored
  obtain rfl : m' = m := hrestored
  cases found with
  | some analysis => exact Or.inl ⟨analysis, rfl⟩
  | none => exact Or.inr rfl

/-- Whether a turn leaves its analysis under a key, unless that is locked. -/
def isParsedUnder (e : Engine) (key : String) (turn : Turn) : Bool :=
  !turn.hit && e.registry.key e.mode turn.file == key

/-- Turns without a hit compute the analysis, locks stay, and under a free key of the domain stands
the last analysis that was computed for it. -/
theorem turns_memory (e : Engine) (files : List ReadFile) (m : MemoryStorage) :
    (∀ turn ∈ (e.turns MemoryStorage.storage files m).1, turn.hit = false →
      turn.analysis = e.registry.analysis e.mode turn.file) ∧
    (e.turns MemoryStorage.storage files m).1.map (·.file) = files ∧
    (e.turns MemoryStorage.storage files m).2.locks = m.locks ∧
    ∀ domain key, (e.turns MemoryStorage.storage files m).2.get? domain key =
      if domain = CacheEntry.domain ∧ key ∉ m.locks then
        ((((e.turns MemoryStorage.storage files m).1.filter
          (e.isParsedUnder key)).getLast?.map (·.entry.toBytes)).or (m.get? domain key))
      else m.get? domain key := by
  induction files generalizing m with
  | nil => exact ⟨nofun, rfl, rfl, fun domain key => by simp [turns]⟩
  | cons file files ih =>
    rw [turns]
    rcases e.analyze_cases file m with ⟨analysis, hfound⟩ | hcomputed
    · obtain ⟨hanalysis, hfiles, hlocks, hget⟩ := ih m
      rw [hfound]
      dsimp only
      refine ⟨?_, ?_, hlocks, fun domain key => ?_⟩
      · intro turn hturn hhit
        rcases List.mem_cons.mp hturn with rfl | hturn
        · exact Bool.noConfusion hhit
        · exact hanalysis turn hturn hhit
      · rw [List.map_cons, hfiles]
      · rw [hget, List.filter_cons_of_neg (by simp [isParsedUnder])]
    · obtain ⟨hanalysis, hfiles, hlocks, hget⟩ := ih (MemoryStorage.storage.keep
        (e.registry.key e.mode file) ⟨file.1, e.registry.analysis e.mode file⟩ m)
      rw [hcomputed]
      dsimp only
      refine ⟨?_, ?_, ?_, fun domain key => ?_⟩
      · intro turn hturn hhit
        rcases List.mem_cons.mp hturn with rfl | hturn
        · rfl
        · exact hanalysis turn hturn hhit
      · rw [List.map_cons, hfiles]
      · rw [hlocks, MemoryStorage.keep_locks]
      · rw [hget, MemoryStorage.keep_locks, MemoryStorage.get?_keep, List.filter_cons]
        -- only under the key of the file has the turn an effect, and what follows goes on from that
        by_cases hplace : domain = CacheEntry.domain ∧ key ∉ m.locks
        · rw [if_pos hplace, if_pos hplace]
          by_cases hkey : key = e.registry.key e.mode file
          · rw [if_pos ⟨hplace.1, hkey, hkey ▸ hplace.2⟩, if_pos (by simp [isParsedUnder, hkey]),
              List.getLast?_cons]
            cases ((e.turns MemoryStorage.storage files _).1.filter _).getLast? <;> rfl
          · rw [if_neg fun h => hkey h.2.1, if_neg (by simpa [isParsedUnder] using Ne.symm hkey)]
        · rw [if_neg hplace, if_neg hplace, if_neg]
          rintro ⟨hdomain, hkey, hfree⟩
          exact hplace ⟨hdomain, hkey ▸ hfree⟩

/-- What turns leave of a memory, and what they put in it. -/
structure Frame (e : Engine) (turns : List Turn) (m m' : MemoryStorage) : Prop where
  locks : m'.locks = m.locks
  locked : ∀ domain, ∀ key ∈ m.locks, m'.get? domain key = m.get? domain key
  domains : ∀ domain key, domain ≠ CacheEntry.domain → m'.get? domain key = m.get? domain key
  /-- What differs is what was computed for a file with this key, and can be read. -/
  changed : ∀ domain key, m'.get? domain key ≠ m.get? domain key →
    domain = CacheEntry.domain ∧ ∃ turn ∈ turns, turn.hit = false ∧
      key = e.registry.key e.mode turn.file ∧
      turn.analysis = e.registry.analysis e.mode turn.file ∧ m'.kept? key = some turn.entry
  /-- Where nothing is locked, what was computed is kept until the next turn with the same key. -/
  computed : ∀ turn ∈ turns, turn.hit = false → e.registry.key e.mode turn.file ∉ m.locks →
    ∃ turn' ∈ turns, turn'.hit = false ∧
      e.registry.key e.mode turn'.file = e.registry.key e.mode turn.file ∧
      m'.kept? (e.registry.key e.mode turn.file) = some turn'.entry

theorem frame_turns (hfits : ∀ file ∈ files, e.registry.FitsWords file.1 file.2)
    (m : MemoryStorage) : e.Frame (e.turns MemoryStorage.storage files m).1 m
      (e.turns MemoryStorage.storage files m).2 := by
  obtain ⟨hanalysis, hfiles, hlocks, hget⟩ := e.turns_memory files m
  generalize e.turns MemoryStorage.storage files m = result at hanalysis hfiles hlocks hget ⊢
  obtain ⟨turns, m'⟩ := result
  dsimp only at hanalysis hfiles hlocks hget ⊢
  -- the entry of the last turn that computed something under a key can be read
  have hkept {key : String} (hfree : key ∉ m.locks) {turn : Turn}
      (hlast : (turns.filter (e.isParsedUnder key)).getLast? = some turn) :
      turn ∈ turns ∧ turn.hit = false ∧ e.registry.key e.mode turn.file = key ∧
        m'.kept? key = some turn.entry := by
    obtain ⟨hturn, hparsed⟩ := List.mem_filter.mp (List.mem_of_getLast? hlast)
    rw [isParsedUnder, Bool.and_eq_true, Bool.not_eq_true', beq_iff_eq] at hparsed
    have hread : turn.entry.analysis.FitsWords := by
      change turn.analysis.FitsWords
      rw [hanalysis turn hturn hparsed.1]
      exact (hfits turn.file (hfiles ▸ List.mem_map_of_mem hturn)).analyze_fitsWords e.mode.collects
    refine ⟨hturn, hparsed.1, hparsed.2, ?_⟩
    rw [MemoryStorage.kept?, hget, if_pos ⟨rfl, hfree⟩, hlast]
    exact CacheEntry.ofBytes?_toBytes hread
  refine ⟨hlocks, fun domain key hlocked => ?_, fun domain key hother => ?_,
    fun domain key hchanged => ?_, fun turn hturn hparsed hfree => ?_⟩
  · rw [hget, if_neg fun h => h.2 hlocked]
  · rw [hget, if_neg fun h => hother h.1]
  · rw [hget] at hchanged
    split_ifs at hchanged with hplace
    · cases hlast : (turns.filter (e.isParsedUnder key)).getLast? with
      | none =>
        rw [hlast] at hchanged
        exact absurd rfl hchanged
      | some turn =>
        obtain ⟨hturn, hparsed, hkey, hentry⟩ := hkept hplace.2 hlast
        exact ⟨hplace.1, turn, hturn, hparsed, hkey.symm, hanalysis turn hturn hparsed, hentry⟩
    · exact absurd rfl hchanged
  · have hmem : turn ∈ turns.filter (e.isParsedUnder (e.registry.key e.mode turn.file)) := by
      rw [List.mem_filter, isParsedUnder, hparsed]
      exact ⟨hturn, beq_self_eq_true _⟩
    exact ⟨_, hkept hfree (List.getLast?_eq_getLast_of_ne_nil (List.ne_nil_of_mem hmem))⟩

end Engine

/--
A run of an engine of either mode, over all files or over those that changed, leaves the locks of a
memory, what is locked, and all but the analyses. An analysis in the memory changes only if it was
computed in a turn of the run, and is then the one that was computed.
-/
theorem Request.run_frame {r : Registry} {q : Request}
    (hfits : ∀ file ∈ q.files r, r.FitsWords file.1 file.2) (m : MemoryStorage) :
    (q.turns r MemoryStorage.storage m).1.map (·.file) = q.files r ∧
    (∀ run, (q.run r MemoryStorage.storage m).1 = .ok run →
      run.stats = .ofTurns (q.turns r MemoryStorage.storage m).1) ∧
    (q.engine r).Frame (q.turns r MemoryStorage.storage m).1 m
      (q.run r MemoryStorage.storage m).2 := by
  obtain ⟨hstate, hstats⟩ := q.run_eq_turns r MemoryStorage.storage m
  refine ⟨((q.engine r).turns_memory (q.files r) m).2.1, hstats, ?_⟩
  rw [hstate]
  exact Engine.frame_turns hfits m

/-- A file that is no text, with a lock and an entry of another domain in the memory. -/
theorem Request.run_frame_invalid_utf8 :
    let r : Registry := ⟨[("php", .php)], []⟩
    let provider := MemoryFiles.provider ⟨[("a.php", ⟨#[0xff]⟩)], .empty⟩
    let q : Request := ⟨.project, false, .report provider, []⟩
    let m : MemoryStorage := ⟨[(("other", "a"), ⟨#[0x21]⟩)], ["b"]⟩
    q.files r = [("a.php", ⟨#[0xff]⟩)] ∧
    (q.turns r MemoryStorage.storage m).1.map (·.file) = q.files r ∧
    (∀ run, (q.run r MemoryStorage.storage m).1 = .ok run →
      run.stats = .ofTurns (q.turns r MemoryStorage.storage m).1) ∧
    (q.engine r).Frame (q.turns r MemoryStorage.storage m).1 m
      (q.run r MemoryStorage.storage m).2 := by
  intro r provider q m
  have hfiles : q.files r = [("a.php", ⟨#[0xff]⟩)] := rfl
  refine ⟨hfiles, run_frame ?_ m⟩
  intro file hfile
  rw [hfiles, List.mem_singleton] at hfile
  rw [hfile]
  exact Registry.fitsWords_invalid_utf8

end PhpLint
