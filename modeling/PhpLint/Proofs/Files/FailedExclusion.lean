import PhpLint.Proofs.Files.PathFilter

/-!
Exclusions that fail. A call that fails leaves out the directories among its patterns all the same,
and no call after it succeeds: what it noted is never taken back.
-/
namespace PhpLint.PathFilter

variable {f : PathFilter} {patterns : List String} {raw directory path : String} {e : ProviderError}

/-- The filter after some calls, whether or not they succeed. -/
def addAll (f : PathFilter) (calls : List (List String)) : PathFilter :=
  calls.foldl (fun f patterns => (f.add patterns).1) f

@[simp] theorem addAll_nil (f : PathFilter) : f.addAll [] = f :=
  rfl

theorem addAll_concat (f : PathFilter) (calls : List (List String)) (patterns : List String) :
    f.addAll (calls ++ [patterns]) = ((f.addAll calls).add patterns).1 := by
  unfold addAll
  rw [List.foldl_append]
  rfl

/-! ### How a call fails -/

/-- There is only one way to fail. -/
theorem invalidPattern_of_compileAll (h : compileAll patterns = .error e) :
    ∃ pattern reason, e = .invalidPattern pattern reason := by
  have hcompile {pattern : String} (h : compile pattern = .error e) :
      ∃ pattern reason, e = .invalidPattern pattern reason := by
    unfold compile at h
    cases hparse : Glob.parse pattern with
    | ok pieces => rw [hparse] at h; cases h
    | error cause =>
      rw [hparse] at h
      cases h
      exact ⟨pattern, _, rfl⟩
  have hmapM {patterns : List String} (h : patterns.mapM compile = .error e) :
      ∃ pattern reason, e = .invalidPattern pattern reason := by
    induction patterns with
    | nil => exact absurd h except_pure_ne_error
    | cons pattern patterns ih =>
      rw [List.mapM_cons, except_bind_eq_error] at h
      rcases h with hfirst | ⟨pieces, -, h⟩
      · exact hcompile hfirst
      rcases except_bind_eq_error.mp h with hrest | ⟨rest, -, h⟩
      · exact ih hrest
      · exact absurd h except_pure_ne_error
  unfold compileAll at h
  rcases except_bind_eq_error.mp h with hread | ⟨globs, -, h⟩
  · exact hmapM hread
  rcases except_bind_eq_error.mp h with hdeep | ⟨-, -, h⟩
  · cases hcheck : Glob.checkDepth globs with
    | ok _ => rw [hcheck] at hdeep; cases hdeep
    | error cause =>
      rw [hcheck] at hdeep
      cases hdeep
      exact ⟨", ".intercalate patterns, _, rfl⟩
  · exact absurd h except_pure_ne_error

theorem invalidPattern_of_add (h : (f.add patterns).2 = .error e) :
    ∃ pattern reason, e = .invalidPattern pattern reason := by
  unfold add at h
  dsimp only at h
  split at h
  case h_1 => cases h
  case h_2 e' hcompile =>
    cases h
    exact invalidPattern_of_compileAll hcompile

theorem add_ne_ok_iff : (f.add patterns).2 ≠ .ok () ↔
    ∃ pattern reason, (f.add patterns).2 = .error (.invalidPattern pattern reason) := by
  constructor
  · intro h
    cases hadd : (f.add patterns).2 with
    | ok _ => exact absurd hadd h
    | error e =>
      obtain ⟨pattern, reason, rfl⟩ := invalidPattern_of_add hadd
      exact ⟨pattern, reason, rfl⟩
  · rintro ⟨pattern, reason, h⟩ hok
    rw [h] at hok
    cases hok

/-! ### What a call that fails leaves behind -/

/-- Patterns are never forgotten. -/
theorem patterns_add (f : PathFilter) (patterns : List String) :
    (f.add patterns).1.patterns = f.patterns ++ patterns.filterMap glob? := by
  unfold add
  rw [foldl_note]
  dsimp only
  split <;> rfl

theorem subset_patterns_addAll (f : PathFilter) (calls : List (List String)) :
    f.patterns ⊆ (f.addAll calls).patterns := by
  induction calls generalizing f with
  | nil => exact List.Subset.refl _
  | cons patterns calls ih =>
    have hfirst : f.patterns ⊆ (f.add patterns).1.patterns := by
      rw [patterns_add]
      exact List.subset_append_left _ _
    exact List.Subset.trans hfirst (ih (f.add patterns).1)

/-- A filter is stuck when a pattern in it cannot come into force: no call on it can succeed. -/
def Stuck (f : PathFilter) : Prop :=
  ∃ pattern ∈ f.patterns, ¬ Compiles pattern

theorem add_ne_ok_iff_stuck : (f.add patterns).2 ≠ .ok () ↔ Stuck (f.add patterns).1 := by
  rw [ne_eq, add_eq_ok_iff, Stuck, patterns_add]
  push Not
  rfl

theorem Stuck.addAll (h : Stuck f) (calls : List (List String)) : Stuck (f.addAll calls) := by
  obtain ⟨pattern, hpattern, hbad⟩ := h
  exact ⟨pattern, subset_patterns_addAll f calls hpattern, hbad⟩

/-- After one failure every call fails. -/
theorem Stuck.add_ne_ok (h : Stuck f) (calls : List (List String)) (patterns : List String) :
    ((f.addAll calls).add patterns).2 ≠ .ok () := by
  rw [add_ne_ok_iff_stuck, ← addAll_concat]
  exact h.addAll _

/-- A filter is stuck just if some call on it has failed. -/
theorem stuck_addAll_empty_iff {calls : List (List String)} : Stuck (empty.addAll calls) ↔
    ∃ before failed rest, calls = before ++ failed :: rest ∧
      ((empty.addAll before).add failed).2 ≠ .ok () := by
  induction calls using List.reverseRecOn with
  | nil => simp [Stuck, empty]
  | append_singleton calls patterns ih =>
    rw [addAll_concat, ← add_ne_ok_iff_stuck]
    constructor
    · intro h
      exact ⟨calls, patterns, [], rfl, h⟩
    · rintro ⟨before, failed, rest, hcalls, hfailed⟩
      rcases List.eq_nil_or_concat rest with rfl | ⟨rest, last, rfl⟩
      · obtain ⟨rfl, hlast⟩ := List.append_inj' hcalls rfl
        obtain rfl : patterns = failed := by simpa using hlast
        exact hfailed
      · rw [List.concat_eq_append, ← List.cons_append, ← List.append_assoc] at hcalls
        obtain ⟨rfl, -⟩ := List.append_inj' hcalls rfl
        exact (ih.mpr ⟨before, failed, rest, rfl, hfailed⟩).add_ne_ok [] patterns

theorem isPlain_of_directory? (h : directory? raw = some directory) : IsPlain raw := by
  obtain ⟨before, after, htrimmed, hblank, hfirst, -⟩ :=
    Text.exists_append_trimBy Text.isWhiteSpace raw.toList
  unfold directory? at h
  split_ifs at h with hkind
  obtain ⟨hempty, hglob⟩ : (normalize raw).isEmpty = false ∧ isGlob (normalize raw) = false := by
    simpa using hkind
  constructor
  · cases hbody : Text.trimBy Text.isWhiteSpace raw.toList with
    | nil =>
      rw [String.isEmpty_eq_false_iff, ne_eq, ← String.toList_inj, toList_normalize,
        hbody] at hempty
      exact absurd rfl hempty
    | cons c body =>
      rw [hbody] at htrimmed hfirst
      exact ⟨c, by simp [htrimmed], hfirst c rfl⟩
  · intro c hc
    have hmarks : ∀ c ∈ ['*', '?', '[', '\x7b'], Text.isWhiteSpace c = false ∧ c ≠ '\\' := by
      simp [Text.isWhiteSpace, Text.whiteSpaceRanges]
    have hmark : c ∉ ['*', '?', '[', '\x7b'] := by
      intro hmark
      obtain ⟨hsolid, hkept⟩ := hmarks c hmark
      have hbody : c ∈ Text.trimBy Text.isWhiteSpace raw.toList := by
        rw [htrimmed, List.mem_append, List.mem_append, or_right_comm, ← List.mem_append] at hc
        refine hc.resolve_left fun hends => ?_
        simp [hblank c hends] at hsolid
      have hmem : c ∈ (normalize raw).toList := by
        rw [toList_normalize]
        exact List.mem_map.mpr ⟨c, hbody, if_neg hkept⟩
      exact List.any_eq_false.mp hglob c hmem (List.contains_iff_mem.mpr hmark)
    simpa using hmark

/-- Being below a directory that a text names is being left out by the text alone. -/
theorem exists_directory?_iff : (∃ directory, directory? raw = some directory ∧
      isBelow directory path = true) ↔
    IsPlain raw ∧ (empty.add [raw]).1.isExcluded path = true := by
  have halone (hplain : IsPlain raw) : (empty.add [raw]).1.isExcluded path = true ↔
      ∃ directory, directory? raw = some directory ∧ isBelow directory path = true := by
    have hok : (empty.add [raw]).2 = .ok () := by
      rw [add_snd_eq_ok_iff holds_empty.patterns]
      simp [hplain.glob?]
    rw [(holds_empty.after_add hok).isExcluded_iff]
    simp [Excludes, hplain.glob?]
  constructor
  · rintro ⟨directory, hdirectory, hbelow⟩
    have hplain := isPlain_of_directory? hdirectory
    exact ⟨hplain, (halone hplain).mpr ⟨directory, hdirectory, hbelow⟩⟩
  · rintro ⟨hplain, hexcluded⟩
    exact (halone hplain).mp hexcluded

/-- A call that fails leaves out the directories among its patterns, and nothing else. -/
theorem isExcluded_add_of_error (h : (f.add patterns).2 = .error e) :
    (f.add patterns).1.isExcluded path = true ↔ f.isExcluded path = true ∨
      ∃ raw ∈ patterns, IsPlain raw ∧ (empty.add [raw]).1.isExcluded path = true := by
  have hnew : (patterns.filterMap directory?).any (isBelow · path) = true ↔
      ∃ raw ∈ patterns, IsPlain raw ∧ (empty.add [raw]).1.isExcluded path = true := by
    simp only [List.any_eq_true, List.mem_filterMap, ← exists_directory?_iff]
    constructor
    · rintro ⟨directory, ⟨raw, hraw, hdirectory⟩, hbelow⟩
      exact ⟨raw, hraw, directory, hdirectory, hbelow⟩
    · rintro ⟨raw, hraw, directory, hdirectory, hbelow⟩
      exact ⟨directory, ⟨raw, hraw, hdirectory⟩, hbelow⟩
  rw [add_fst_of_error h, ← hnew]
  unfold isExcluded
  dsimp only
  rw [List.any_append, Bool.or_eq_true, Bool.or_eq_true, Bool.or_eq_true]
  exact or_right_comm

/-! ### Calls that fail without harm -/

/-- A call after which the filter does what it would have done without it: every path is judged
alike, and every later call succeeds or fails alike. -/
structure Harmless (f : PathFilter) (patterns : List String) : Prop where
  paths : ∀ path, (f.add patterns).1.isExcluded path = f.isExcluded path
  calls : ∀ later next, (((f.add patterns).1.addAll later).add next).2 = .ok () ↔
    ((f.addAll later).add next).2 = .ok ()

/--
After any calls, one that fails leaves out what its plain patterns leave out alone, and every call
after it fails as well. So it does no harm just if a call had failed before, and its plain patterns
were left out already.
-/
theorem harmless_iff_of_error (calls : List (List String)) (patterns : List String)
    (pattern reason : String) :
    let f := empty.addAll calls
    (f.add patterns).2 = .error (.invalidPattern pattern reason) →
    (∀ path, (f.add patterns).1.isExcluded path = true ↔ f.isExcluded path = true ∨
      ∃ raw ∈ patterns, IsPlain raw ∧ (empty.add [raw]).1.isExcluded path = true) ∧
    (∀ later next, ∃ pattern reason,
      (((f.add patterns).1.addAll later).add next).2 = .error (.invalidPattern pattern reason)) ∧
    (Harmless f patterns ↔
      (∃ before failed rest, calls = before ++ failed :: rest ∧
        ((empty.addAll before).add failed).2 ≠ .ok ()) ∧
      ∀ raw ∈ patterns, IsPlain raw → ∀ path,
        (empty.add [raw]).1.isExcluded path = true → f.isExcluded path = true) := by
  intro f hfails
  have hpaths (path : String) : (f.add patterns).1.isExcluded path = true ↔
      f.isExcluded path = true ∨
        ∃ raw ∈ patterns, IsPlain raw ∧ (empty.add [raw]).1.isExcluded path = true :=
    isExcluded_add_of_error hfails
  have hstuck : Stuck (f.add patterns).1 := by
    rw [← add_ne_ok_iff_stuck, hfails]
    exact nofun
  refine ⟨hpaths, fun later next => add_ne_ok_iff.mp (hstuck.add_ne_ok later next), ?_⟩
  rw [← stuck_addAll_empty_iff]
  constructor
  · intro hharmless
    constructor
    · -- adding nothing tells whether a filter is stuck
      have hnothing : (f.add []).2 ≠ .ok () := by
        rw [ne_eq, ← addAll_nil f, ← hharmless.calls [] []]
        exact hstuck.add_ne_ok [] []
      rw [add_ne_ok_iff_stuck] at hnothing
      have hsame : (f.add []).1.patterns = f.patterns := by
        rw [patterns_add, List.filterMap_nil, List.append_nil]
      rwa [Stuck, hsame] at hnothing
    · intro raw hraw hplain path hexcluded
      rw [← hharmless.paths path, hpaths]
      exact .inr ⟨raw, hraw, hplain, hexcluded⟩
  · rintro ⟨hbefore, hcovered⟩
    constructor
    · intro path
      rw [Bool.eq_iff_iff, hpaths]
      refine or_iff_left_of_imp ?_
      rintro ⟨raw, hraw, hplain, hexcluded⟩
      exact hcovered raw hraw hplain path hexcluded
    · intro later next
      exact iff_of_false (hstuck.add_ne_ok later next) (hbefore.add_ne_ok later next)

/-- The second call that fails does no harm, and blames a pattern of the first one; the first one
left out a directory for good. -/
theorem harmless_iff_of_error_twice :
    let f := empty.addAll [["lib", "x["]]
    let reason := "error parsing glob 'x[': unclosed character class; missing ']'"
    (f.add ["lib", "a["]).2 = .error (.invalidPattern "x[" reason) ∧ Harmless f ["lib", "a["] ∧
    (empty.add ["lib", "x["]).2 = .error (.invalidPattern "x[" reason) ∧
      ¬ Harmless empty ["lib", "x["] := by
  intro f reason
  have hfirst : (empty.add ["lib", "x["]).2 = .error (.invalidPattern "x[" reason) := by
    decide +kernel
  have hsecond : (f.add ["lib", "a["]).2 = .error (.invalidPattern "x[" reason) := by
    decide +kernel
  refine ⟨hsecond, ?_, hfirst, ?_⟩
  · have hiff := (harmless_iff_of_error [["lib", "x["]] _ _ _ hsecond).2.2
    refine hiff.mpr ⟨⟨[], _, [], rfl, add_ne_ok_iff.mpr ⟨_, _, hfirst⟩⟩, ?_⟩
    intro raw hraw hplain path hexcluded
    rw [List.mem_pair] at hraw
    rcases hraw with rfl | rfl
    · exact (isExcluded_add_of_error hfirst).mpr (.inr ⟨"lib", by simp, hplain, hexcluded⟩)
    · simpa using hplain.plain '[' (by simp)
  · have hiff := (harmless_iff_of_error [] _ _ _ hfirst).2.2
    rintro hharmless
    obtain ⟨⟨before, failed, rest, hnone, -⟩, -⟩ := hiff.mp hharmless
    simp at hnone

/-- A call that fails leaves out a directory that was not left out before, and a call that would
have succeeded fails after it. -/
theorem not_harmless_of_error :
    let patterns := ["vendor", "a["]
    let reason := "error parsing glob 'a[': unclosed character class; missing ']'"
    (empty.add patterns).2 = .error (.invalidPattern "a[" reason) ∧ ¬ Harmless empty patterns ∧
    empty.isExcluded "vendor/a.php" = false ∧
      (empty.add patterns).1.isExcluded "vendor/a.php" = true ∧
    (empty.add ["b"]).2 = .ok () ∧
      ((empty.add patterns).1.add ["b"]).2 = .error (.invalidPattern "a[" reason) := by
  intro patterns reason
  have hbefore : empty.isExcluded "vendor/a.php" = false := by decide +kernel
  have hafter : (empty.add patterns).1.isExcluded "vendor/a.php" = true := by decide +kernel
  refine ⟨by decide +kernel, ?_, hbefore, hafter, by decide +kernel, by decide +kernel⟩
  intro hharmless
  have hsame := hharmless.paths "vendor/a.php"
  rw [hbefore, hafter] at hsame
  cases hsame

end PhpLint.PathFilter
