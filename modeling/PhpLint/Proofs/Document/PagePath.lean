import PhpLint.Document.Output
import PhpLint.Proofs.Files.Write
import PhpLint.Proofs.Model.Spelling

/-!
Where the page of a declaration is written. The words of its full name are the names on the way, as
far as the characters of a word can be part of a path.
-/
namespace PhpLint

variable {objectId objectId' extension : String} {c : Char}

/-- The names that lead to the page of an object: other characters than letters, digits, points and
hyphens become hyphens, and what would be empty is left out. -/
def pathNames (objectId : String) : List String :=
  (Path.pieces (String.ofList (objectId.toList.map pathChar))).filter (!Path.isIdle ·)

/-! ### Characters -/

theorem pathChar_ne_point (h : c ≠ '.') : pathChar c ≠ '.' := by
  unfold pathChar
  split_ifs
  · decide
  · exact h
  · decide

theorem pathChar_ne_slash (h : c ≠ '\\') (h' : c ≠ '/') : pathChar c ≠ '/' := by
  unfold pathChar
  rw [if_neg (by simpa using h)]
  split_ifs
  · exact h'
  · decide

theorem replaceDoublePoints_of_not_mem {s : List Char} (h : '.' ∉ s) :
    replaceDoublePoints s = s := by
  induction s with
  | nil => rfl
  | cons c s ih =>
    rw [List.mem_cons, not_or] at h
    rw [replaceDoublePoints, ih h.2]
    rintro r rfl
    exact absurd rfl h.1

theorem Token.ne_point_of_isWordChar (h : Token.isWordChar c) : c ≠ '.' := by
  rintro rfl
  exact absurd h (by decide)

theorem Token.ne_slash_of_isWordChar (h : Token.isWordChar c) : c ≠ '/' := by
  rintro rfl
  exact absurd h (by decide)

/-! ### Full names -/

namespace IsFullName

theorem point_not_mem (h : IsFullName objectId) : '.' ∉ objectId.toList.map pathChar := by
  intro hmem
  obtain ⟨c, hc, hpoint⟩ := List.mem_map.mp hmem
  refine pathChar_ne_point ?_ hpoint
  rcases h.chars c hc with hword | rfl
  · exact Token.ne_point_of_isWordChar hword
  · decide

theorem objectPath_eq (h : IsFullName objectId) (extension : String) :
    objectPath objectId extension =
      String.ofList (objectId.toList.map pathChar) ++ ("." ++ extension) := by
  unfold objectPath
  rw [replaceDoublePoints_of_not_mem h.point_not_mem, String.append_assoc]

/-- A full name does not begin with a separator, and neither does the path of its page. -/
theorem isAbsolute_objectPath (h : IsFullName objectId) (extension : String) :
    Path.isAbsolute (objectPath objectId extension) = false := by
  obtain ⟨c, hlast, _⟩ := h.last
  have hne : objectId.toList ≠ [] := by
    rintro hnil
    rw [hnil] at hlast
    contradiction
  obtain ⟨first, rest, hfirst⟩ := List.exists_cons_of_ne_nil hne
  have hseparator : first ≠ '\\' := by
    rintro rfl
    exact h.head (by rw [hfirst]; rfl)
  have hword : Token.isWordChar first :=
    (h.chars first (hfirst ▸ List.mem_cons_self)).resolve_right hseparator
  have hslash := pathChar_ne_slash hseparator (Token.ne_slash_of_isWordChar hword)
  unfold Path.isAbsolute
  rw [h.objectPath_eq, hfirst, String.toList_append, String.toList_ofList, List.map_cons,
    List.cons_append, List.head?_cons]
  simpa using hslash

/-- The pieces of a full name, the last of which is a name, and those of the path of its page. -/
theorem exists_pieces (h : IsFullName objectId) (hextension : '/' ∉ extension.toList) :
    ∃ front last, Path.pieces (String.ofList (objectId.toList.map pathChar)) = front ++ [last] ∧
      Path.pieces (objectPath objectId extension) = front ++ [last ++ "." ++ extension] ∧
      (∀ piece ∈ front, '/' ∉ piece.toList ∧ '.' ∉ piece.toList) ∧
      '/' ∉ last.toList ∧ '.' ∉ last.toList ∧ last ≠ "" := by
  have hrest : '/' ∉ ("." ++ extension).toList := by
    rw [String.toList_append, List.mem_append, not_or]
    exact ⟨by decide, hextension⟩
  obtain ⟨front, last, hpieces, happend⟩ :=
    Text.splitAt_append_of_not_mem (s := objectId.toList.map pathChar) hrest
  have hmem {w : List Char} (hw : w ∈ front ++ [last]) : '/' ∉ w ∧ '.' ∉ w := by
    rw [← hpieces] at hw
    exact ⟨fun hslash => (Text.mem_of_mem_splitAt hw hslash).2 rfl,
      fun hpoint => h.point_not_mem (Text.mem_of_mem_splitAt hw hpoint).1⟩
  have hlast := hmem (List.mem_append_right front List.mem_cons_self)
  refine ⟨front.map String.ofList, String.ofList last, ?_, ?_, ?_, ?_, ?_, ?_⟩
  · rw [Path.pieces, String.toList_ofList, hpieces, List.map_append, List.map_singleton]
  · rw [Path.pieces, h.objectPath_eq, String.toList_append, String.toList_ofList, happend,
      List.map_append, List.map_singleton, String.ofList_append, String.ofList_toList,
      String.append_assoc]
  · intro piece hpiece
    obtain ⟨w, hw, rfl⟩ := List.mem_map.mp hpiece
    rw [String.toList_ofList]
    exact hmem (List.mem_append_left [last] hw)
  · rw [String.toList_ofList]
    exact hlast.1
  · rw [String.toList_ofList]
    exact hlast.2
  · intro hempty
    -- the last character of a full name is that of a word, so that the last piece is not empty
    obtain ⟨c, hlastChar, hword⟩ := h.last
    obtain ⟨name, hname⟩ := List.getLast?_eq_some_iff.mp hlastChar
    have hslash := pathChar_ne_slash (Token.ne_separator_of_isWordChar hword)
      (Token.ne_slash_of_isWordChar hword)
    obtain ⟨front', last', _, hconcat⟩ :=
      Text.splitAt_append_of_not_mem (c := '/') (s := name.map pathChar) (r := [pathChar c])
        (by simpa using hslash.symm)
    rw [hname, List.map_append, List.map_singleton, hconcat] at hpieces
    have hsame := List.singleton_inj.mp (List.append_inj' hpieces rfl).2
    rw [← hsame] at hempty
    simp [← String.toList_inj] at hempty

/-- The page of a declaration is below the directory of its report, behind the names of the words
of its full name. -/
theorem leads_pagePath (h : IsFullName objectId) (hextension : '/' ∉ extension.toList)
    {reportId : String} (hreport : Path.IsName reportId) (directory : String) :
    ∃ front last, pathNames objectId = front ++ [last] ∧
      Path.Leads directory (reportId :: front) (last ++ "." ++ extension)
        (DocumentationOutput.pagePath directory reportId objectId extension) ∧
      ∀ name ∈ front, '.' ∉ name.toList := by
  obtain ⟨front, last, hnames, hpath, hfront, hslash, hpoint, hne⟩ := h.exists_pieces hextension
  have hextends := Path.extends_join hreport directory
  obtain ⟨c, hc⟩ : ∃ c, c ∈ last.toList :=
    List.exists_mem_of_ne_nil _ (by simpa using hne)
  have hother : c ≠ '.' := by
    rintro rfl
    exact hpoint hc
  have hcounts : ¬ Path.isIdle last := (Path.isName_of_mem hslash hc hother).2.1
  have hfile : Path.IsName (last ++ "." ++ extension) := by
    refine Path.isName_of_mem ?_ (c := c) (by simp [hc]) hother
    have hseparator : '/' ∉ ".".toList := by decide
    simp only [String.toList_append, List.mem_append, not_or]
    exact ⟨⟨hslash, hseparator⟩, hextension⟩
  refine ⟨front.filter (!Path.isIdle ·), last, ?_, ?_, ?_⟩
  · unfold pathNames
    rw [hnames, List.filter_append, List.filter_cons_of_pos (by simpa using hcounts),
      List.filter_nil]
  · unfold DocumentationOutput.pagePath
    rw [hextends.join_eq_under (h.isAbsolute_objectPath extension), hpath]
    refine Path.leads_under hextends (fun piece hpiece => ⟨(hfront piece hpiece).1, ?_⟩) hfile
    rintro rfl
    exact (hfront ".." hpiece).2 (by decide)
  · exact fun name hname => (hfront name (List.mem_of_mem_filter hname)).2

end IsFullName

/-! ### Pages in one place -/

/-- Two pages of a report are written to one place if the names on the way are the same. -/
theorem placeOf_pagePath_eq_iff (h : IsFullName objectId) (h' : IsFullName objectId')
    (hextension : '/' ∉ extension.toList) {reportId : String} (hreport : Path.IsName reportId)
    (directory : String) (workingDirectory : Location) :
    FileTree.placeOf workingDirectory
        (DocumentationOutput.pagePath directory reportId objectId extension) =
      FileTree.placeOf workingDirectory
        (DocumentationOutput.pagePath directory reportId objectId' extension) ↔
      pathNames objectId = pathNames objectId' := by
  obtain ⟨front, last, hnames, hleads, _⟩ := h.leads_pagePath hextension hreport directory
  obtain ⟨front', last', hnames', hleads', _⟩ := h'.leads_pagePath hextension hreport directory
  rw [FileTree.placeOf_leads hleads, FileTree.placeOf_leads hleads', hnames, hnames']
  constructor
  · intro hplace
    obtain ⟨hdirectories, hfile⟩ := List.append_inj' hplace rfl
    rw [List.append_cancel_left_eq, List.cons.injEq] at hdirectories
    have hlast : last = last' := by
      simpa using hfile
    rw [hdirectories.2, hlast]
  · intro hsame
    obtain ⟨rfl, hlast⟩ := List.append_inj' hsame rfl
    rw [List.singleton_inj.mp hlast]

end PhpLint
