import PhpLint.Document.Output
import PhpLint.Proofs.Files.Below
import PhpLint.Proofs.Files.Directory

/-!
Pages stay in the directory of their report, and links lead to them, unless the name of an object
begins with a separator. The path of such a page is absolute.
-/
namespace PhpLint

variable {objectId extension : String}

/-! ### Pieces of the path of a page -/

namespace Text

theorem infix_intercalate {w : List Char} {ws : List (List Char)} (h : w ∈ ws) (sep : List Char) :
    w <:+: sep.intercalate ws := by
  induction ws with
  | nil => contradiction
  | cons first ws ih =>
    cases ws with
    | nil =>
      rw [List.mem_singleton.mp h, List.intercalate_singleton]
    | cons second ws =>
      rw [List.intercalate_cons_cons]
      rcases List.mem_cons.mp h with rfl | h
      · exact ((List.prefix_append _ _).trans (List.prefix_append _ _)).isInfix
      · exact (ih h).trans (List.suffix_append _ _).isInfix

theorem infix_of_mem_splitAt {c : Char} {s w : List Char} (h : w ∈ splitAt c s) : w <:+: s := by
  have hinfix := infix_intercalate h [c]
  rwa [intercalate_splitAt] at hinfix

end Text

/-- The first character stays, unless it is a point before another one. -/
theorem head?_replaceDoublePoints (s : List Char) :
    (replaceDoublePoints s).head? = s.head? ∨
      s.head? = some '.' ∧ (replaceDoublePoints s).head? = some '-' := by
  fun_cases replaceDoublePoints s with
  | case1 r => exact Or.inr ⟨rfl, rfl⟩
  | case2 c r hpair => exact Or.inl rfl
  | case3 => exact Or.inl rfl

/-- No two points are left that follow each other. -/
theorem not_infix_replaceDoublePoints (s : List Char) :
    ¬ ['.', '.'] <:+: replaceDoublePoints s := by
  fun_induction replaceDoublePoints s with
  | case1 r ih => simpa [List.infix_cons_iff] using ih
  | case2 c r hpair ih =>
    rw [List.infix_cons_iff, not_or]
    refine ⟨fun hpoints => ?_, ih⟩
    obtain ⟨rfl, hrest⟩ := List.cons_prefix_cons.mp hpoints
    obtain ⟨r', hrest⟩ := hrest
    have hpoint : (replaceDoublePoints r).head? = some '.' := by
      rw [← hrest]
      rfl
    rcases head?_replaceDoublePoints r with hhead | ⟨_, hhead⟩
    · obtain ⟨r', rfl⟩ := List.head?_eq_some_iff.mp (hhead.symm.trans hpoint)
      exact hpair r' rfl rfl
    · rw [hhead] at hpoint
      exact absurd hpoint (by decide)
  | case3 => simp

/-- No piece leads up. -/
theorem points_not_mem_pieces_objectPath (hslash : '/' ∉ extension.toList)
    (hextension : ∃ c ∈ extension.toList, c ≠ '.') (objectId : String) :
    ".." ∉ Path.pieces (objectPath objectId extension) := by
  have hrest : '/' ∉ ("." ++ extension).toList := by
    rw [String.toList_append, List.mem_append, not_or]
    exact ⟨by decide, hslash⟩
  obtain ⟨front, last, hpieces, happend⟩ := Text.splitAt_append_of_not_mem
    (s := replaceDoublePoints (objectId.toList.map pathChar)) hrest
  unfold objectPath Path.pieces
  rw [String.append_assoc, String.toList_append, String.toList_ofList, happend, List.map_append,
    List.mem_append, not_or]
  constructor
  · intro hmem
    obtain ⟨w, hw, hpoints⟩ := List.mem_map.mp hmem
    have hw : w ∈ Text.splitAt '/' (replaceDoublePoints (objectId.toList.map pathChar)) :=
      hpieces ▸ List.mem_append_left _ hw
    have hpoints : w = ['.', '.'] := String.ofList_injective hpoints
    exact not_infix_replaceDoublePoints _ (hpoints ▸ Text.infix_of_mem_splitAt hw)
  · intro hmem
    have hlast : ['.', '.'] = last ++ ("." ++ extension).toList :=
      String.ofList_injective (List.mem_singleton.mp hmem)
    obtain ⟨c, hc, hpoint⟩ := hextension
    have hc : c ∈ ['.', '.'] := by
      rw [hlast]
      simp [hc]
    exact hpoint (by simpa using hc)

/-- Whether the name of an object begins with what becomes a separator of a path. -/
def BeginsWithSeparator (objectId : String) : Prop :=
  objectId.toList.head? = some '/' ∨ objectId.toList.head? = some '\\'

theorem pathChar_eq_slash_iff {c : Char} : pathChar c = '/' ↔ c = '/' ∨ c = '\\' := by
  unfold pathChar
  split_ifs with hseparator hchar
  · exact iff_of_true rfl (Or.inr (by simpa using hseparator))
  · exact (or_iff_left (by simpa using hseparator)).symm
  · refine iff_of_false (by decide) ?_
    rintro (rfl | rfl)
    · exact hchar (by decide)
    · exact hseparator rfl

theorem isAbsolute_objectPath_iff (objectId extension : String) :
    Path.isAbsolute (objectPath objectId extension) ↔ BeginsWithSeparator objectId := by
  unfold Path.isAbsolute objectPath BeginsWithSeparator
  rw [beq_iff_eq, String.append_assoc, String.toList_append, String.toList_ofList]
  cases objectId.toList with
  | nil => simp [replaceDoublePoints]
  | cons c s =>
    have hhead : (replaceDoublePoints ((c :: s).map pathChar)).head? = some '/' ↔
        pathChar c = '/' := by
      rcases head?_replaceDoublePoints ((c :: s).map pathChar) with h | ⟨hpoint, h⟩
      · rw [h, List.map_cons, List.head?_cons, Option.some_inj]
      · rw [List.map_cons, List.head?_cons, Option.some_inj] at hpoint
        rw [h, hpoint]
        decide
    have hne : replaceDoublePoints ((c :: s).map pathChar) ≠ [] := by
      rcases head?_replaceDoublePoints ((c :: s).map pathChar) with h | ⟨_, h⟩ <;>
      · rintro hnil
        rw [hnil] at h
        cases h
    rw [List.head?_append_of_ne_nil _ hne, hhead, pathChar_eq_slash_iff, List.head?_cons,
      Option.some_inj, Option.some_inj]

/-! ### Links -/

/-- Whether two paths are the same name by name. -/
def Path.Same (path path' : String) : Prop :=
  Path.isAbsolute path = Path.isAbsolute path' ∧ Path.components path = Path.components path'

/-- What follows a path that is put behind another one follows both. -/
theorem Path.join_append {path : String} (h : path ≠ "") (base rest : String) :
    Path.join base (path ++ rest) = Path.join base path ++ rest := by
  unfold Path.join
  rw [Path.isAbsolute_append h]
  split_ifs <;> simp only [String.append_assoc]

theorem Path.join_ne_empty_of_ne {path : String} (h : path ≠ "") (base : String) :
    Path.join base path ≠ "" := by
  unfold Path.join
  split_ifs <;> simp [h]

/-- A second slash means nothing. -/
theorem Path.same_join_slash {path base : String} (h : Path.isAbsolute path = false)
    (hbase : base ≠ "") : Path.Same (Path.join base path) (base ++ "/" ++ path) := by
  obtain ⟨rfl, _⟩ | ⟨front, rfl, hjoin⟩ | ⟨_, hjoin⟩ := Path.join_cases_of_relative h base
  · contradiction
  · rw [hjoin]
    constructor
    · have hassoc : front ++ "/" ++ "/" ++ path = front ++ "/" ++ ("/" ++ path) :=
        String.append_assoc
      rw [hassoc, Path.isAbsolute_append hbase, Path.isAbsolute_append hbase]
    · obtain ⟨first, rest, hfront⟩ := List.exists_cons_of_ne_nil (Path.pieces_ne_nil front)
      have hpieces := Path.pieces_append_slash front path
      have hpieces' := Path.pieces_append_slash (front ++ "/") path
      rw [Path.pieces_concat_slash] at hpieces'
      rw [hfront] at hpieces hpieces'
      rw [Path.components_of_pieces hpieces, Path.components_of_pieces hpieces']
      simp [Path.isIdle]
  · rw [hjoin]
    exact ⟨rfl, rfl⟩

theorem same_pagePath (directory : String) {reportId : String} (hreport : reportId ≠ "")
    (h : ¬ BeginsWithSeparator objectId) (extension : String) :
    Path.Same (DocumentationOutput.pagePath directory reportId objectId extension)
      (Path.join directory (reportLink reportId (some objectId) "" none extension)) := by
  have hlink : reportLink reportId (some objectId) "" none extension =
      reportId ++ ("/" ++ objectPath objectId extension) := by
    simp [reportLink, String.append_assoc]
  rw [hlink, Path.join_append hreport, ← String.append_assoc]
  refine Path.same_join_slash ?_ (Path.join_ne_empty_of_ne hreport directory)
  exact Bool.eq_false_iff.mpr fun habsolute => h ((isAbsolute_objectPath_iff _ _).mp habsolute)

/-! ### What a run changes -/

namespace DocumentationOutput

open FileTree

variable {t : FileTree} {o : DocumentationOutput} {directory reportId : String}
  {workingDirectory : Location}

/-- The path of a page whose name begins with a separator leads out of every directory. -/
theorem pagePath_of_beginsWithSeparator (h : BeginsWithSeparator objectId)
    (directory reportId extension : String) :
    pagePath directory reportId objectId extension = objectPath objectId extension := by
  rw [pagePath, Path.join, (isAbsolute_objectPath_iff _ _).mpr h, Bool.true_or, if_pos rfl]

/-- Other pages are below the directory of their report. -/
theorem placeOf_pagePath (h : ¬ BeginsWithSeparator objectId) (directory reportId : String)
    (workingDirectory : Location) :
    placeOf workingDirectory (pagePath directory reportId objectId "json") =
      placeOf workingDirectory (Path.join directory reportId) ++
        (Path.pieces (objectPath objectId "json")).filter (!Path.isIdle ·) := by
  have hrelative : Path.isAbsolute (objectPath objectId "json") = false :=
    Bool.eq_false_iff.mpr fun habsolute => h ((isAbsolute_objectPath_iff _ _).mp habsolute)
  rw [pagePath, placeOf_join hrelative, place_eq_append]
  exact points_not_mem_pieces_objectPath (by decide) ⟨'j', by decide, by decide⟩ objectId

/-- Files stay that are not at the place of a path that is written. -/
theorem keepsFiles_writeFiles (files : List (String × String)) (t : FileTree) :
    KeepsFiles (fun l => ∀ file ∈ files, placeOf t.workingDirectory file.1 ≠ l) t
      (writeFiles files t).2 := by
  induction files generalizing t with
  | nil => exact fun _ _ _ _ => Iff.rfl
  | cons file files ih =>
    have hgrows := grows_ensureDirectories t ((Path.parent? file.1).getD "")
    rw [writeFiles]
    split
    · rename_i t₁ hensure
      rw [hensure] at hgrows
      exact hgrows.keepsFiles _
    · rename_i t₁ hensure
      rw [hensure] at hgrows
      split
      · exact hgrows.keepsFiles _
      · rename_i t₂ hwrite
        obtain ⟨l, hlocate, _, rfl⟩ := write_eq_ok.mp hwrite
        have hplace : placeOf t.workingDirectory file.1 = l := by
          rw [← hgrows.workingDirectory]
          exact placeOf_of_locate hlocate
        have hrest := ih (t₁.put l (.file file.2.toUTF8 t₁.now))
        rw [workingDirectory_put, hgrows.workingDirectory] at hrest
        have hwritten : ¬ ∀ f ∈ file :: files, placeOf t.workingDirectory f.1 ≠ l :=
          fun hother => hother file List.mem_cons_self hplace
        have hput := keepsFiles_put (p := fun l => ∀ f ∈ file :: files,
          placeOf t.workingDirectory f.1 ≠ l) hwritten t₁ (.file file.2.toUTF8 t₁.now)
        refine ((hgrows.keepsFiles _).trans hput).trans fun l' content modified hother => ?_
        exact hrest l' content modified fun f hf => hother f (List.mem_cons_of_mem file hf)

/-- Where no page's name begins with a separator, nothing changes but the links and what is below
the directories of the reports. -/
theorem keepsFiles_write (h : ∀ report ∈ o.pages, ∀ page ∈ report.2,
      ¬ BeginsWithSeparator page.objectId) (directory : String) (t : FileTree) :
    KeepsFiles (fun l => l ≠ placeOf t.workingDirectory (Path.join directory "links.json") ∧
      ∀ report ∈ o.pages, ¬ placeOf t.workingDirectory (Path.join directory report.1) <+: l) t
      (o.write directory "json" t).2 := by
  rintro l content modified ⟨hlinks, hreports⟩
  refine keepsFiles_writeFiles (o.outputFiles directory "json") t l content modified ?_
  intro file hfile hplace
  rcases List.mem_append.mp hfile with hfile | hfile
  · obtain ⟨report, hreport, hfile⟩ := List.mem_flatMap.mp hfile
    obtain ⟨page, hpage, rfl⟩ := List.mem_map.mp hfile
    refine hreports report hreport ?_
    rw [← hplace, placeOf_pagePath (h report hreport page hpage)]
    exact List.prefix_append _ _
  · rw [List.mem_singleton.mp hfile] at hplace
    exact hlinks hplace.symm

/--
No piece of a page's path leads up, and the path is absolute if and only if the name of the object
begins with a separator. Then it leads out of every directory; otherwise the page is below the
directory of its report and where the link to it leads, if the report has a name. If no name begins
with a separator, a run changes no other files than these and the one with the links.
-/
theorem pages_contained (o : DocumentationOutput) (directory : String) (t : FileTree) :
    (∀ report ∈ o.pages, ∀ page ∈ report.2,
      ".." ∉ Path.pieces (objectPath page.objectId "json") ∧
      (Path.isAbsolute (objectPath page.objectId "json") ↔ BeginsWithSeparator page.objectId) ∧
      (BeginsWithSeparator page.objectId → pagePath directory report.1 page.objectId "json" =
        objectPath page.objectId "json") ∧
      (¬ BeginsWithSeparator page.objectId →
        placeOf t.workingDirectory (pagePath directory report.1 page.objectId "json") =
          placeOf t.workingDirectory (Path.join directory report.1) ++
            (Path.pieces (objectPath page.objectId "json")).filter (!Path.isIdle ·)) ∧
      (¬ BeginsWithSeparator page.objectId → report.1 ≠ "" →
        Path.Same (pagePath directory report.1 page.objectId "json")
          (Path.join directory (reportLink report.1 (some page.objectId) "" none "json")))) ∧
    ((∀ report ∈ o.pages, ∀ page ∈ report.2, ¬ BeginsWithSeparator page.objectId) →
      KeepsFiles (fun l => l ≠ placeOf t.workingDirectory (Path.join directory "links.json") ∧
        ∀ report ∈ o.pages, ¬ placeOf t.workingDirectory (Path.join directory report.1) <+: l) t
        (o.write directory "json" t).2) := by
  refine ⟨fun report _ page _ => ⟨?_, isAbsolute_objectPath_iff _ _,
    fun h => pagePath_of_beginsWithSeparator h _ _ _, fun h => placeOf_pagePath h _ _ _,
    fun h hreport => same_pagePath directory hreport h "json"⟩,
    fun h => keepsFiles_write h directory t⟩
  exact points_not_mem_pieces_objectPath (by decide) ⟨'j', by decide, by decide⟩ page.objectId

/-- A page of a report whose directory is there. -/
theorem pages_contained_nested :
    let o : DocumentationOutput := ⟨[("pages", [⟨"a\\b", "one"⟩])], .empty, []⟩
    let t := FileTree.ofDirectory ["out", "pages"] 0
    placeOf t.workingDirectory (pagePath "/out" "pages" "a\\b" "json") =
      ["out", "pages", "a", "b.json"] ∧
    Path.Same (pagePath "/out" "pages" "a\\b" "json")
      (Path.join "/out" (reportLink "pages" (some "a\\b") "" none "json")) ∧
    KeepsFiles (fun l => l ≠ placeOf t.workingDirectory (Path.join "/out" "links.json") ∧
      ∀ report ∈ o.pages, ¬ placeOf t.workingDirectory (Path.join "/out" report.1) <+: l) t
      (o.write "/out" "json" t).2 := by
  intro o t
  obtain ⟨hpages, hwrite⟩ := pages_contained o "/out" t
  have hbegins : ¬ BeginsWithSeparator "a\\b" := by
    unfold BeginsWithSeparator
    decide
  obtain ⟨_, _, _, hplace, hlink⟩ := hpages ("pages", [⟨"a\\b", "one"⟩]) List.mem_cons_self
    ⟨"a\\b", "one"⟩ List.mem_cons_self
  refine ⟨?_, hlink hbegins (by decide), hwrite ?_⟩
  · rw [hplace hbegins]
    decide +kernel
  · intro report hreport page hpage
    rw [List.mem_singleton.mp hreport] at hpage
    rw [List.mem_singleton.mp hpage]
    exact hbegins

/-- A page whose name begins with a separator is written, but not where it is looked for. -/
theorem not_pages_contained :
    let o : DocumentationOutput := ⟨[("pages", [⟨"\\tmp\\a", "one"⟩])], .empty, []⟩
    let t := FileTree.ofDirectory ["out"] 0
    (o.write "/out" "json" t).1.toOption = some ["/tmp/a.json", "/out/links.json"] ∧
    (o.write "/out" "json" t).2.isFile "/tmp/a.json" ∧
    Path.isAbsolute (objectPath "\\tmp\\a" "json") ∧
    (o.write "/out" "json" t).2.isFile
      (Path.join "/out" (reportLink "pages" (some "\\tmp\\a") "" none "json")) = false := by
  decide +kernel

end DocumentationOutput

end PhpLint
