import PhpLint.Files.PathFilter
import PhpLint.Proofs.Except
import PhpLint.Proofs.Text.Pieces

/-! A filter leaves out just what its patterns leave out one by one. -/
namespace PhpLint

/-! ### Patterns in force -/

namespace Glob

/-- A pattern that may be matched by its expression does not nest too deep. -/
def Fits (pieces : List Piece) : Prop :=
  method pieces = .extensionFirst ∨ method pieces = .expression → isTooDeep pieces = false

/-- Both kinds of patterns that are matched by their expressions are looked at. -/
theorem checkDepth_eq_ok_iff {patterns : List (List Piece)} :
    checkDepth patterns = .ok () ↔ ∀ pieces ∈ patterns, Fits pieces := by
  have hsome {m : Method} (hm : m = .extensionFirst ∨ m = .expression)
      (hdeep : ∃ pieces ∈ patterns.filter (method · == m), isTooDeep pieces = true) :
      ¬ ∀ pieces ∈ patterns, Fits pieces := by
    obtain ⟨pieces, hmem, hdeep⟩ := hdeep
    rw [List.mem_filter, beq_iff_eq] at hmem
    intro hfits
    have hfits := hfits pieces hmem.1 (by rwa [hmem.2])
    simp [hfits] at hdeep
  unfold checkDepth
  cases hextension : (patterns.filter (method · == .extensionFirst)).find? isTooDeep with
  | some pieces =>
    have hdeep := hsome (.inl rfl)
      ⟨pieces, List.mem_of_find?_eq_some hextension, List.find?_some hextension⟩
    simp [hextension, hdeep]
  | none =>
    cases hexpression : (patterns.filter (method · == .expression)).findIdx? isTooDeep with
    | some index =>
      have hdeep := hsome (.inr rfl) (by
        rw [List.findIdx?_eq_some_iff_getElem] at hexpression
        obtain ⟨hlt, hdeep, -⟩ := hexpression
        exact ⟨_, List.getElem_mem hlt, hdeep⟩)
      simp [hextension, hexpression, hdeep]
    | none =>
      have hshallow : ∀ pieces ∈ patterns, Fits pieces := by
        rintro pieces hmem (hm | hm)
        · have hmem : pieces ∈ patterns.filter (method · == .extensionFirst) := by
            simpa [hm] using hmem
          simpa using List.find?_eq_none.mp hextension pieces hmem
        · have hmem : pieces ∈ patterns.filter (method · == .expression) := by
            simpa [hm] using hmem
          exact List.findIdx?_eq_none_iff.mp hexpression pieces hmem
      simpa [hextension, hexpression] using hshallow

end Glob

namespace PathFilter

variable {f g : PathFilter} {raws patterns : List String} {raw pattern path : String}

/-- The pattern that a text adds, if it is more than a path. -/
def glob? (raw : String) : Option String :=
  if isGlob (normalize raw) then some (normalize raw) else none

/-- The directory that a text adds, if it is a path. -/
def directory? (raw : String) : Option String :=
  if (normalize raw).isEmpty || isGlob (normalize raw) then none
  else some (directoryOf (normalize raw))

/-- The pieces of a pattern, if it can be read. -/
def pieces? (pattern : String) : Option (List Glob.Piece) :=
  (Glob.parse pattern).toOption

theorem pieces?_eq_some_iff {pieces : List Glob.Piece} :
    pieces? pattern = some pieces ↔ Glob.parse pattern = .ok pieces := by
  unfold pieces?
  cases Glob.parse pattern <;> simp [Except.toOption]

theorem note_eq (f : PathFilter) (raw : String) :
    f.note raw = { f with
      directories := f.directories ++ (directory? raw).toList
      patterns := f.patterns ++ (glob? raw).toList } := by
  have hempty (h : (normalize raw).isEmpty = true) : isGlob (normalize raw) = false := by
    have := String.isEmpty_iff.mp h
    rw [this]
    rfl
  unfold note directory? glob?
  by_cases hblank : (normalize raw).isEmpty = true
  · simp [hblank, hempty hblank]
  · by_cases hglob : isGlob (normalize raw) = true
    · simp [hblank, hglob]
    · simp [hblank, hglob]

theorem foldl_note (f : PathFilter) (raws : List String) :
    raws.foldl note f = { f with
      directories := f.directories ++ raws.filterMap directory?
      patterns := f.patterns ++ raws.filterMap glob? } := by
  induction raws generalizing f with
  | nil => simp
  | cons raw raws ih =>
    rw [List.foldl_cons, ih, note_eq, ← List.singleton_append, List.filterMap_append,
      List.filterMap_append]
    cases hd : directory? raw <;> cases hg : glob? raw <;> simp [hd, hg]

/-- A pattern that can be read and does not nest too deep. -/
def Compiles (pattern : String) : Prop :=
  ∃ pieces, Glob.parse pattern = .ok pieces ∧ Glob.Fits pieces

theorem mapM_compile_eq_ok_iff {globs : List (List Glob.Piece)} :
    patterns.mapM compile = .ok globs ↔
      (∀ pattern ∈ patterns, ∃ pieces, Glob.parse pattern = .ok pieces) ∧
        globs = patterns.filterMap pieces? := by
  induction patterns generalizing globs with
  | nil =>
    rw [List.mapM_nil, except_pure_eq_ok]
    simp [eq_comm]
  | cons pattern patterns ih =>
    have hcompile {pieces : List Glob.Piece} :
        compile pattern = .ok pieces ↔ Glob.parse pattern = .ok pieces := except_mapError_eq_ok
    simp only [List.mapM_cons, except_bind_eq_ok, except_pure_eq_ok, hcompile, ih]
    constructor
    · rintro ⟨pieces, hpieces, rest, ⟨hrest, rfl⟩, rfl⟩
      refine ⟨List.forall_mem_cons.mpr ⟨⟨pieces, hpieces⟩, hrest⟩, ?_⟩
      rw [List.filterMap_cons, pieces?_eq_some_iff.mpr hpieces]
    · rintro ⟨hall, rfl⟩
      obtain ⟨⟨pieces, hpieces⟩, hrest⟩ := List.forall_mem_cons.mp hall
      refine ⟨pieces, hpieces, _, ⟨hrest, rfl⟩, ?_⟩
      rw [List.filterMap_cons, pieces?_eq_some_iff.mpr hpieces]

/-- Patterns come into force together just if each of them can. -/
theorem compileAll_eq_ok_iff {globs : List (List Glob.Piece)} :
    compileAll patterns = .ok globs ↔
      (∀ pattern ∈ patterns, Compiles pattern) ∧ globs = patterns.filterMap pieces? := by
  have hfits (hparse : ∀ pattern ∈ patterns, ∃ pieces, Glob.parse pattern = .ok pieces) :
      (∀ pieces ∈ patterns.filterMap pieces?, Glob.Fits pieces) ↔
        ∀ pattern ∈ patterns, Compiles pattern := by
    constructor
    · intro h pattern hpattern
      obtain ⟨pieces, hpieces⟩ := hparse pattern hpattern
      have hmem : pieces ∈ patterns.filterMap pieces? :=
        List.mem_filterMap.mpr ⟨pattern, hpattern, pieces?_eq_some_iff.mpr hpieces⟩
      exact ⟨pieces, hpieces, h pieces hmem⟩
    · intro h pieces hmem
      obtain ⟨pattern, hpattern, hsome⟩ := List.mem_filterMap.mp hmem
      obtain ⟨pieces', hpieces', hfits⟩ := h pattern hpattern
      rw [pieces?_eq_some_iff, hpieces', Except.ok.injEq] at hsome
      rwa [← hsome]
  have hdepth {globs : List (List Glob.Piece)} {f : Glob.DepthError → ProviderError} :
      (Glob.checkDepth globs).mapError f = .ok () ↔ ∀ pieces ∈ globs, Glob.Fits pieces := by
    rw [except_mapError_eq_ok, Glob.checkDepth_eq_ok_iff]
  unfold compileAll
  simp only [except_bind_eq_ok, except_pure_eq_ok, mapM_compile_eq_ok_iff]
  constructor
  · rintro ⟨_, ⟨hparse, rfl⟩, _, hchecked, rfl⟩
    exact ⟨(hfits hparse).mp (hdepth.mp hchecked), rfl⟩
  · rintro ⟨hcompiles, rfl⟩
    have hparse : ∀ pattern ∈ patterns, ∃ pieces, Glob.parse pattern = .ok pieces := by
      intro pattern hpattern
      obtain ⟨pieces, hpieces, -⟩ := hcompiles pattern hpattern
      exact ⟨pieces, hpieces⟩
    exact ⟨_, ⟨hparse, rfl⟩, (), hdepth.mpr ((hfits hparse).mpr hcompiles), rfl⟩

/-! ### What patterns leave out -/

/-- Whether a text leaves out a path: as a directory or as a pattern. -/
def Excludes (raw path : String) : Prop :=
  (∃ directory, directory? raw = some directory ∧ isBelow directory path = true) ∨
    ∃ pattern pieces, glob? raw = some pattern ∧ Glob.parse pattern = .ok pieces ∧
      Glob.isMatch pieces path = true

/-- A filter that holds some texts, all of them in force. -/
structure Holds (raws : List String) (f : PathFilter) : Prop where
  directories : f.directories = raws.filterMap directory?
  patterns : f.patterns = raws.filterMap glob?
  globs : f.globs = f.patterns.filterMap pieces?
  compiles : ∀ pattern ∈ f.patterns, Compiles pattern

theorem holds_empty : Holds [] empty :=
  ⟨rfl, rfl, rfl, nofun⟩

/-- Adding succeeds just if everything that was ever noted can be read. -/
theorem add_eq_ok_iff (f : PathFilter) (patterns : List String) :
    (f.add patterns).2 = .ok () ↔
      ∀ pattern ∈ f.patterns ++ patterns.filterMap glob?, Compiles pattern := by
  unfold add
  rw [foldl_note]
  dsimp only
  generalize f.patterns ++ patterns.filterMap glob? = noted
  cases hcompile : compileAll noted with
  | ok globs => simpa using (compileAll_eq_ok_iff.mp hcompile).1
  | error e =>
    have hfails : ¬ ∀ pattern ∈ noted, Compiles pattern := by
      intro h
      rw [compileAll_eq_ok_iff.mpr ⟨h, rfl⟩] at hcompile
      cases hcompile
    simpa using hfails

theorem add_snd_eq_ok_iff (hf : f.patterns = raws.filterMap glob?) :
    (f.add patterns).2 = .ok () ↔
      ∀ pattern ∈ (raws ++ patterns).filterMap glob?, Compiles pattern := by
  rw [add_eq_ok_iff, hf, List.filterMap_append]

/-- A call that fails takes note of its patterns all the same. -/
theorem add_fst_of_error {e : ProviderError} (h : (f.add patterns).2 = .error e) :
    (f.add patterns).1 = { f with
      directories := f.directories ++ patterns.filterMap directory?
      patterns := f.patterns ++ patterns.filterMap glob? } := by
  unfold add at h ⊢
  rw [foldl_note] at h ⊢
  dsimp only at h ⊢
  split at h
  · cases h
  · rfl

theorem Holds.after_add (h : Holds raws f) (hok : (f.add patterns).2 = .ok ()) :
    Holds (raws ++ patterns) (f.add patterns).1 := by
  have hcompiles := (add_snd_eq_ok_iff h.patterns).mp hok
  have hall : compileAll ((raws ++ patterns).filterMap glob?) =
      .ok (((raws ++ patterns).filterMap glob?).filterMap pieces?) :=
    compileAll_eq_ok_iff.mpr ⟨hcompiles, rfl⟩
  have hadd : (f.add patterns).1 = ⟨(raws ++ patterns).filterMap directory?,
      (raws ++ patterns).filterMap glob?,
      ((raws ++ patterns).filterMap glob?).filterMap pieces?⟩ := by
    unfold add
    rw [foldl_note, h.directories, h.patterns, ← List.filterMap_append, ← List.filterMap_append]
    dsimp only
    rw [hall]
  rw [hadd]
  exact ⟨rfl, rfl, rfl, hcompiles⟩

theorem Holds.isExcluded_iff (h : Holds raws f) :
    f.isExcluded path = true ↔ ∃ raw ∈ raws, Excludes raw path := by
  unfold isExcluded
  rw [h.globs, h.patterns, h.directories, Bool.or_eq_true, List.any_eq_true, List.any_eq_true]
  constructor
  · rintro (⟨directory, hmem, hbelow⟩ | ⟨pieces, hmem, hmatch⟩)
    · obtain ⟨raw, hraw, hdirectory⟩ := List.mem_filterMap.mp hmem
      exact ⟨raw, hraw, .inl ⟨directory, hdirectory, hbelow⟩⟩
    · obtain ⟨pattern, hpattern, hpieces⟩ := List.mem_filterMap.mp hmem
      obtain ⟨raw, hraw, hglob⟩ := List.mem_filterMap.mp hpattern
      exact ⟨raw, hraw, .inr ⟨pattern, pieces, hglob, pieces?_eq_some_iff.mp hpieces, hmatch⟩⟩
  · rintro ⟨raw, hraw, ⟨directory, hdirectory, hbelow⟩ | ⟨pattern, pieces, hglob, hparse, hmatch⟩⟩
    · exact .inl ⟨directory, List.mem_filterMap.mpr ⟨raw, hraw, hdirectory⟩, hbelow⟩
    · have hpattern := List.mem_filterMap.mpr ⟨raw, hraw, hglob⟩
      exact .inr ⟨pieces,
        List.mem_filterMap.mpr ⟨pattern, hpattern, pieces?_eq_some_iff.mpr hparse⟩, hmatch⟩

/-- A text that came into force with others comes into force alone. -/
theorem Holds.alone (h : Holds raws f) (hraw : raw ∈ raws) :
    (empty.add [raw]).2 = .ok () ∧ Holds [raw] (empty.add [raw]).1 := by
  have hok : (empty.add [raw]).2 = .ok () := by
    rw [add_snd_eq_ok_iff holds_empty.patterns]
    intro pattern hpattern
    apply h.compiles
    rw [h.patterns]
    simp only [List.nil_append, List.filterMap_cons, List.filterMap_nil, List.mem_filterMap]
      at hpattern ⊢
    cases hglob : glob? raw with
    | none => simp [hglob] at hpattern
    | some p => exact ⟨raw, hraw, by simpa [hglob, eq_comm] using hpattern⟩
  exact ⟨hok, holds_empty.after_add hok⟩

/-- Whether or not adding succeeds, what was left out stays left out. -/
theorem Holds.isExcluded_add (h : Holds raws f) (hpath : f.isExcluded path = true) :
    (f.add patterns).1.isExcluded path = true := by
  cases hok : (f.add patterns).2 with
  | ok _ =>
    rw [(h.after_add hok).isExcluded_iff]
    obtain ⟨raw, hraw, hexcludes⟩ := h.isExcluded_iff.mp hpath
    exact ⟨raw, List.mem_append_left _ hraw, hexcludes⟩
  | error e =>
    rw [add_fst_of_error hok]
    unfold isExcluded at hpath ⊢
    dsimp only
    rw [List.any_append]
    rcases Bool.or_eq_true_iff.mp hpath with hdirectory | hglob
    · simp [hdirectory]
    · simp [hglob]

/-- A filter that comes from an empty one by adding groups of texts, each with success. -/
inductive Built : List (List String) → PathFilter → Prop
  | empty : Built [] .empty
  | add {history : List (List String)} {f : PathFilter} {patterns : List String} :
    Built history f → (f.add patterns).2 = .ok () →
      Built (history ++ [patterns]) (f.add patterns).1

theorem Built.holds {history : List (List String)} (h : Built history f) :
    Holds history.flatten f := by
  induction h with
  | empty => exact holds_empty
  | add _ hok ih =>
    rw [List.flatten_append, List.flatten_singleton]
    exact ih.after_add hok

/-! ### Patterns that are paths -/

/-- `name` is a text without the blanks around it, with slashes for backslashes, then without the
current directory in front, then without the slashes behind. -/
inductive IsNormalForm : String → String → Prop
  | intro {raw name : String} (before body after rest : List Char) (here behind : Nat)
    (trimmed : raw.toList = before ++ body ++ after)
    (blank : ∀ c ∈ before ++ after, Text.isWhiteSpace c = true)
    (first : ∀ c ∈ body.head?, Text.isWhiteSpace c = false)
    (last : ∀ c ∈ body.getLast?, Text.isWhiteSpace c = false)
    (slashed : body.map (fun c => if c = '\\' then '/' else c) =
      (List.replicate here ['.', '/']).flatten ++ rest)
    (elsewhere : ¬ ['.', '/'] <+: rest)
    (named : rest = name.toList ++ List.replicate behind '/')
    (open_ended : name.toList.getLast? ≠ some '/') : IsNormalForm raw name

theorem dropHere_append {rest : List Char} (h : ¬ ['.', '/'] <+: rest) (n : Nat) :
    dropHere ((List.replicate n ['.', '/']).flatten ++ rest) = rest := by
  induction n with
  | zero =>
    change dropHere rest = rest
    unfold dropHere
    split
    · exact absurd (by simp) h
    · rfl
  | succ n ih =>
    rw [List.replicate_succ, List.flatten_cons, List.append_assoc]
    exact ih

theorem exists_dropHere_append (s : List Char) :
    ∃ n, s = (List.replicate n ['.', '/']).flatten ++ dropHere s ∧ ¬ ['.', '/'] <+: dropHere s := by
  fun_induction dropHere s with
  | case1 r ih =>
    obtain ⟨n, heq, hrest⟩ := ih
    refine ⟨n + 1, ?_, hrest⟩
    rw [List.replicate_succ, List.flatten_cons, List.append_assoc, ← heq]
    rfl
  | case2 s hne =>
    refine ⟨0, rfl, ?_⟩
    rintro ⟨r, hr⟩
    exact hne r hr.symm

theorem toList_normalize (raw : String) : (normalize raw).toList =
    (Text.trimBy Text.isWhiteSpace raw.toList).map fun c => if c = '\\' then '/' else c := by
  simp [normalize, Text.trim]

/-- Every text has a normal form. -/
theorem isNormalForm_directoryOf (raw : String) :
    IsNormalForm raw (directoryOf (normalize raw)) := by
  obtain ⟨before, after, htrimmed, hblank, hfirst, hlast⟩ :=
    Text.exists_append_trimBy Text.isWhiteSpace raw.toList
  obtain ⟨here, hslashed, helsewhere⟩ := exists_dropHere_append (normalize raw).toList
  obtain ⟨slashes, hnamed, hslashes, hopen⟩ :=
    Text.exists_append_dropWhile_reverse (· == '/') (dropHere (normalize raw).toList)
  have hreplicate : slashes = List.replicate slashes.length '/' :=
    List.eq_replicate_of_mem fun c hc => by simpa using hslashes c hc
  refine .intro before _ after _ here slashes.length htrimmed hblank hfirst hlast
    (by rw [← toList_normalize]; exact hslashed) helsewhere ?_ ?_
  · rw [← hreplicate, directoryOf, String.toList_ofList]
    exact hnamed
  · rw [directoryOf, String.toList_ofList]
    intro h
    simpa using hopen _ h

/-- A text has one normal form only. -/
theorem IsNormalForm.directoryOf_eq {name : String} (h : IsNormalForm raw name) :
    directoryOf (normalize raw) = name := by
  obtain ⟨before, body, after, rest, here, behind, htrimmed, hblank, hfirst, hlast, hslashed,
    helsewhere, hnamed, hopen⟩ := h
  have hnormal : (normalize raw).toList = (List.replicate here ['.', '/']).flatten ++ rest := by
    rw [toList_normalize, htrimmed, Text.trimBy_append hblank hfirst hlast, hslashed]
  unfold directoryOf
  rw [hnormal, dropHere_append helsewhere, hnamed, Text.dropWhile_reverse_append,
    String.ofList_toList]
  · intro c hc
    rw [beq_eq_false_iff_ne]
    intro heq
    exact hopen (heq ▸ hc)
  · intro c hc
    simpa using List.eq_of_mem_replicate hc

/-- A text that holds more than blanks and nothing that makes it more than a path. -/
structure IsPlain (raw : String) : Prop where
  nonblank : ∃ c ∈ raw.toList, Text.isWhiteSpace c = false
  plain : ∀ c ∈ raw.toList, c ≠ '*' ∧ c ≠ '?' ∧ c ≠ '[' ∧ c ≠ '\x7b'

theorem IsPlain.isGlob_eq_false (h : IsPlain raw) : isGlob (normalize raw) = false := by
  obtain ⟨before, after, htrimmed, -⟩ := Text.exists_append_trimBy Text.isWhiteSpace raw.toList
  unfold isGlob
  rw [List.any_eq_false, toList_normalize]
  intro d hd
  obtain ⟨c, hc, rfl⟩ := List.mem_map.mp hd
  have hmem : c ∈ raw.toList := by
    rw [htrimmed]
    exact List.mem_append_left _ (List.mem_append_right _ hc)
  obtain ⟨hstar, hany, hclass, hgroup⟩ := h.plain c hmem
  by_cases hslash : c = '\\'
  · simp [hslash]
  · simp [hslash, hstar, hany, hclass, hgroup]

theorem IsPlain.isEmpty_eq_false (h : IsPlain raw) : (normalize raw).isEmpty = false := by
  obtain ⟨before, after, htrimmed, hblank, -⟩ :=
    Text.exists_append_trimBy Text.isWhiteSpace raw.toList
  obtain ⟨c, hc, hsolid⟩ := h.nonblank
  have hends : c ∉ before ++ after := by
    intro hends
    simp [hblank c hends] at hsolid
  have hbody : c ∈ Text.trimBy Text.isWhiteSpace raw.toList := by
    rw [htrimmed] at hc
    simp only [List.mem_append, not_or] at hc hends
    tauto
  rw [String.isEmpty_eq_false_iff, ne_eq, ← String.toList_inj, toList_normalize]
  exact List.ne_nil_of_mem (List.mem_map_of_mem hbody)

theorem IsPlain.glob? (h : IsPlain raw) : glob? raw = none := by
  unfold PathFilter.glob?
  simp [h.isGlob_eq_false]

theorem isBelow_iff {directory : String} : isBelow directory path = true ↔
    path = directory ∨ ∃ below : List Char, path.toList = directory.toList ++ '/' :: below := by
  unfold isBelow
  rw [Bool.or_eq_true, beq_iff_eq, List.isPrefixOf_iff_prefix]
  constructor
  · rintro (h | ⟨below, h⟩)
    · exact .inl h
    · exact .inr ⟨below, by rw [← h]; simp⟩
  · rintro (h | ⟨below, h⟩)
    · exact .inl h
    · exact .inr ⟨below, by rw [h]; simp⟩

/-- A plain text leaves out its normal form and what lies below it. -/
theorem IsPlain.excludes_iff (h : IsPlain raw) : Excludes raw path ↔
    path = directoryOf (normalize raw) ∨
      ∃ below : List Char, path.toList = (directoryOf (normalize raw)).toList ++ '/' :: below := by
  have hdirectory : directory? raw = some (directoryOf (normalize raw)) := by
    unfold directory?
    simp [h.isEmpty_eq_false, h.isGlob_eq_false]
  unfold Excludes
  rw [hdirectory, h.glob?, ← isBelow_iff]
  simp

/-! ### Filters as unions -/

/-- Texts that come into force one by one come into force in any groups. -/
theorem exists_built {history : List (List String)}
    (h : ∀ pattern ∈ history.flatten.filterMap glob?, Compiles pattern) :
    ∃ f, Built history f := by
  induction history using List.reverseRecOn with
  | nil => exact ⟨empty, .empty⟩
  | append_singleton history patterns ih =>
    rw [List.flatten_append, List.flatten_singleton] at h
    obtain ⟨f, hf⟩ := ih fun pattern hpattern => h pattern (by
      rw [List.filterMap_append]
      exact List.mem_append_left _ hpattern)
    exact ⟨_, hf.add ((add_snd_eq_ok_iff hf.holds.patterns).mpr h)⟩

/-- A filter leaves out what its patterns leave out one by one, whatever their order and groups,
and goes on leaving it out; a plain pattern leaves out its normal form and what lies below it. -/
theorem isExcluded_iff_exists_alone :
    (∀ history f, Built history f →
      (∀ raw ∈ history.flatten, (empty.add [raw]).2 = .ok ()) ∧
      (∀ path, f.isExcluded path = true ↔
        ∃ raw ∈ history.flatten, (empty.add [raw]).1.isExcluded path = true) ∧
      (∀ history', (∀ raw, raw ∈ history'.flatten ↔ raw ∈ history.flatten) →
        (∃ f', Built history' f') ∧
        ∀ f', Built history' f' → ∀ path, f'.isExcluded path = f.isExcluded path) ∧
      ∀ patterns path, f.isExcluded path = true → (f.add patterns).1.isExcluded path = true) ∧
    ∀ raw, IsPlain raw →
      (empty.add [raw]).2 = .ok () ∧
      ∃ name, (∀ other, IsNormalForm raw other ↔ other = name) ∧
        ∀ path, (empty.add [raw]).1.isExcluded path = true ↔
          path = name ∨ ∃ below : List Char, path.toList = name.toList ++ '/' :: below := by
  constructor
  · intro history f hf
    have hholds := hf.holds
    refine ⟨fun raw hraw => (hholds.alone hraw).1, ?_, ?_, ?_⟩
    · intro path
      rw [hholds.isExcluded_iff]
      apply exists_congr
      intro raw
      apply and_congr_right
      intro hraw
      rw [(hholds.alone hraw).2.isExcluded_iff]
      simp
    · intro history' hsame
      constructor
      · apply exists_built
        intro pattern hpattern
        obtain ⟨raw, hraw, hglob⟩ := List.mem_filterMap.mp hpattern
        apply hholds.compiles
        rw [hholds.patterns]
        exact List.mem_filterMap.mpr ⟨raw, (hsame raw).mp hraw, hglob⟩
      · intro f' hf' path
        rw [Bool.eq_iff_iff, hf'.holds.isExcluded_iff, hholds.isExcluded_iff]
        simp only [hsame]
    · intro patterns path
      exact hholds.isExcluded_add
  · intro raw hplain
    have hok : (empty.add [raw]).2 = .ok () := by
      rw [add_snd_eq_ok_iff holds_empty.patterns]
      simp [hplain.glob?]
    refine ⟨hok, directoryOf (normalize raw), ?_, ?_⟩
    · intro other
      constructor
      · intro h
        exact h.directoryOf_eq.symm
      · rintro rfl
        exact isNormalForm_directoryOf raw
    · intro path
      rw [(holds_empty.after_add hok).isExcluded_iff, ← hplain.excludes_iff]
      simp

/-- Two groups of patterns, and a directory that is not written in its normal form. -/
theorem isExcluded_iff_exists_alone_two_groups :
    let f := (empty.add ["vendor/", "lib/*.inc"]).1
    let g := (f.add [" .\\./tmp// "]).1
    (∀ path, g.isExcluded path = true ↔
      ∃ raw ∈ ["vendor/", "lib/*.inc", " .\\./tmp// "],
        (empty.add [raw]).1.isExcluded path = true) ∧
    ∀ path, (empty.add [" .\\./tmp// "]).1.isExcluded path = true ↔
      path = "tmp" ∨ ∃ below : List Char, path.toList = "tmp".toList ++ '/' :: below := by
  intro f g
  have hok {x : Except ProviderError Unit} (h : x.toOption = some ()) : x = .ok () := by
    cases x with
    | ok _ => rfl
    | error e => cases h
  have hf : Built [["vendor/", "lib/*.inc"]] f := Built.empty.add (hok (by decide +kernel))
  have hg : Built [["vendor/", "lib/*.inc"], [" .\\./tmp// "]] g :=
    hf.add (hok (by decide +kernel))
  have hplain : IsPlain " .\\./tmp// " := ⟨⟨'t', by decide⟩, by simp⟩
  have hblank : Text.isWhiteSpace ' ' = true := by decide
  have hpoint : Text.isWhiteSpace '.' = false := by decide
  have hslash : Text.isWhiteSpace '/' = false := by decide
  have hnormal : IsNormalForm " .\\./tmp// " "tmp" :=
    .intro [' '] ".\\./tmp//".toList [' '] "tmp//".toList 2 2 rfl (by simp [hblank])
      (by simp [hpoint]) (by simp [hslash]) (by simp [List.replicate_succ])
      (by simp) (by simp [List.replicate_succ]) (by simp)
  obtain ⟨-, name, hname, hpaths⟩ := isExcluded_iff_exists_alone.2 _ hplain
  rw [← (hname "tmp").mp hnormal] at hpaths
  exact ⟨(isExcluded_iff_exists_alone.1 _ _ hg).2.1, hpaths⟩

end PathFilter

end PhpLint
