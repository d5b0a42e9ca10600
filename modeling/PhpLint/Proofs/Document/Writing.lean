import PhpLint.Document.Output
import PhpLint.Proofs.Files.Write

/-! Documentation that is written: what is in its files then, and where it can be written. -/
namespace PhpLint.DocumentationOutput

open FileTree

variable {t t' t₁ : FileTree} {files : List (String × String)} {file : String × String}
  {path directory : String} {l workingDirectory : Location}

/-! ### What is in the files -/

/-- The content that is written last to the place of a path. -/
def latest? (workingDirectory : Location) (path : String) (files : List (String × String)) :
    Option String :=
  (files.filter fun file =>
    placeOf workingDirectory file.1 == placeOf workingDirectory path).getLast?.map (·.2)

theorem latest?_cons : latest? workingDirectory path (file :: files) =
    (latest? workingDirectory path files).or
      (if placeOf workingDirectory file.1 = placeOf workingDirectory path then some file.2
        else none) := by
  unfold latest?
  rw [List.filter_cons]
  split_ifs with hbeq heq heq
  · rw [List.getLast?_cons]
    cases (files.filter fun file =>
      placeOf workingDirectory file.1 == placeOf workingDirectory path).getLast? <;> rfl
  · exact absurd (eq_of_beq hbeq) heq
  · exact absurd (beq_iff_eq.mpr heq) hbeq
  · rw [Option.or_none]

/-- A run that succeeds makes the directories of its first file and writes it. -/
theorem writeFiles_cons (h : writeFiles (file :: files) t = (.ok (), t')) :
    ∃ t₁ t₂, t.Grows t₁ ∧ t₁.write file.1 file.2.toUTF8 = .ok t₂ ∧
      writeFiles files t₂ = (.ok (), t') := by
  have hgrows := grows_ensureDirectories t ((Path.parent? file.1).getD "")
  rw [writeFiles] at h
  split at h
  · simp at h
  · rename_i t₁ hensure
    rw [hensure] at hgrows
    split at h
    · simp at h
    · rename_i t₂ hwrite
      exact ⟨t₁, t₂, hgrows, hwrite, h⟩

/-- What a file holds after a run is what was written last to its place, if anything was. -/
theorem read_of_writeFiles {data : ByteArray} (h : writeFiles files t = (.ok (), t'))
    (hread : t.read path = .ok data) : t'.read path =
      .ok (((latest? t.workingDirectory path files).map String.toUTF8).getD data) := by
  induction files generalizing t data with
  | nil =>
    obtain ⟨_, rfl⟩ := Prod.mk.inj h
    exact hread
  | cons file files ih =>
    obtain ⟨t₁, t₂, hgrows, hwrite, hrest⟩ := writeFiles_cons h
    have hdirectory : t₂.workingDirectory = t.workingDirectory :=
      (workingDirectory_write hwrite).trans hgrows.workingDirectory
    rw [ih hrest (read_of_write_of_read hwrite (hgrows.read hread)), hdirectory,
      hgrows.workingDirectory, latest?_cons]
    cases latest? t.workingDirectory path files with
    | some content => rfl
    | none => split_ifs <;> rfl

/-- After a run each path that was written holds what was written last to its place. -/
theorem exists_latest? (h : writeFiles files t = (.ok (), t')) (hfile : file ∈ files) :
    ∃ content, latest? t.workingDirectory file.1 files = some content ∧
      t'.read file.1 = .ok content.toUTF8 := by
  induction files generalizing t with
  | nil => contradiction
  | cons first files ih =>
    obtain ⟨t₁, t₂, hgrows, hwrite, hrest⟩ := writeFiles_cons h
    have hdirectory : t₂.workingDirectory = t.workingDirectory :=
      (workingDirectory_write hwrite).trans hgrows.workingDirectory
    rw [latest?_cons]
    rcases List.mem_cons.mp hfile with rfl | hfile
    · have hread := read_of_writeFiles hrest (read_of_write hwrite)
      rw [hdirectory] at hread
      rw [if_pos rfl]
      cases hlatest : latest? t.workingDirectory file.1 files with
      | some content => exact ⟨content, rfl, by rw [hread, hlatest]; rfl⟩
      | none => exact ⟨file.2, rfl, by rw [hread, hlatest]; rfl⟩
    · obtain ⟨content, hlatest, hread⟩ := ih hrest hfile
      rw [hdirectory] at hlatest
      exact ⟨content, by rw [hlatest, Option.some_or], hread⟩

/-! ### Where it can be written -/

/-- A directory below which the files have a point in their names, and the directories none. -/
structure IsSite (t : FileTree) (directory : String) (l : Location) : Prop where
  root : t.stat directory = .ok (l, .directory)
  directories : ∀ {names name}, t.node? (l ++ names ++ [name]) = some .directory →
    '.' ∉ name.toList
  files : ∀ {names name content modified},
    t.node? (l ++ names ++ [name]) = some (.file content modified) → '.' ∈ name.toList

/-- Such a directory is one with nothing in it. -/
theorem isSite_of_empty (hroot : t.stat directory = .ok (l, .directory))
    (hnone : ∀ names, names ≠ [] → t.node? (l ++ names) = none) : IsSite t directory l := by
  have hnode (names : List String) (name : String) : t.node? (l ++ names ++ [name]) = none := by
    rw [List.append_assoc]
    exact hnone _ (List.concat_ne_nil name names)
  refine ⟨hroot, fun {names name} hdirectory => ?_, fun {names name _ _} hfile => ?_⟩
  · rw [hnode names name] at hdirectory
    contradiction
  · rw [hnode names name] at hfile
    contradiction

/-- A path through directories without a point in their names to a file with one. -/
def IsPlaced (directory path : String) : Prop :=
  ∃ names name, Path.Leads directory names name path ∧ (∀ n ∈ names, '.' ∉ n.toList) ∧
    '.' ∈ name.toList

theorem IsSite.put (h : IsSite t directory l) {names : List String} {name : String}
    (hname : '.' ∈ name.toList) (content : ByteArray) (modified : ℕ) :
    IsSite (t.put (l ++ names ++ [name]) (.file content modified)) directory l := by
  have hnode : t.node? (l ++ names ++ [name]) ≠ some .directory := fun hdirectory =>
    h.directories hdirectory hname
  have hkeeps := keepsDirectories_put hnode (.file content modified)
  refine ⟨hkeeps.stat h.root (hkeeps.node?_directory (stat_eq_ok.mp h.root).2), ?_, ?_⟩
  · intro names' name' hnode'
    by_cases heq : l ++ names' ++ [name'] = l ++ names ++ [name]
    · rw [heq, node?_put_self (ne_nil_of_node? hnode)] at hnode'
      exact Node.noConfusion (Option.some.inj hnode')
    · rw [node?_put_of_ne heq] at hnode'
      exact h.directories hnode'
  · intro names' name' content' modified' hnode'
    by_cases heq : l ++ names' ++ [name'] = l ++ names ++ [name]
    · rwa [List.singleton_inj.mp (List.append_inj' heq rfl).2]
    · rw [node?_put_of_ne heq] at hnode'
      exact h.files hnode'

/-- A file is written in its place, and the directory stays as documentation needs it. -/
theorem IsSite.write (h : IsSite t directory l) (hplaced : IsPlaced directory path)
    (hfits : Fits path) (data : ByteArray) :
    ∃ t₁ t₂, t.ensureDirectories ((Path.parent? path).getD "") = (.ok (), t₁) ∧
      t₁.write path data = .ok t₂ ∧ IsSite t₂ directory l := by
  obtain ⟨names, name, hleads, hnames, hname⟩ := hplaced
  have hfree (ns : List String) (hns : ns <+: names) (content : ByteArray) (modified : ℕ) :
      t.node? (l ++ ns) ≠ some (.file content modified) := by
    intro hfile
    rcases List.eq_nil_or_concat ns with rfl | ⟨ns, n, rfl⟩
    · rw [List.append_nil, (stat_eq_ok.mp h.root).2] at hfile
      exact Node.noConfusion (Option.some.inj hfile)
    · rw [List.concat_eq_append, ← List.append_assoc] at hfile
      exact hnames n (hns.subset (by simp)) (h.files hfile)
  have hgrows := grows_ensureDirectories t ((Path.parent? path).getD "")
  obtain ⟨t₁, hensure, hlocate, hothers⟩ := ensureDirectories_leads hleads hfits h.root hfree
  rw [hensure] at hgrows
  have hsite : IsSite t₁ directory l := by
    refine ⟨hgrows.stat h.root, fun {names' name'} hnode => ?_,
      fun hnode => h.files (hgrows.file hnode)⟩
    by_cases hmade : ∃ ns, ns ≠ [] ∧ ns <+: names ∧ l ++ names' ++ [name'] = l ++ ns
    · obtain ⟨ns, _, hns, heq⟩ := hmade
      rw [List.append_assoc, List.append_cancel_left_eq] at heq
      exact hnames name' (hns.subset (by simp [← heq]))
    · rw [hothers _ fun ns hne hns heq => hmade ⟨ns, hne, hns, heq⟩] at hnode
      exact h.directories hnode
  refine ⟨t₁, t₁.put (l ++ names ++ [name]) (.file data t₁.now), hensure, ?_, hsite.put hname _ _⟩
  exact write_eq_ok.mpr ⟨_, hlocate, fun hnode => hsite.directories hnode hname, rfl⟩

/-- Documentation can be written again and again where its directories and files are told apart by
a point in their names. -/
theorem IsSite.writeFiles (h : IsSite t directory l)
    (hplaced : ∀ file ∈ files, IsPlaced directory file.1) (hfits : ∀ file ∈ files, Fits file.1) :
    ∃ t', writeFiles files t = (.ok (), t') ∧ IsSite t' directory l := by
  induction files generalizing t with
  | nil => exact ⟨t, rfl, h⟩
  | cons file files ih =>
    obtain ⟨t₁, t₂, hensure, hwrite, hsite⟩ := h.write (hplaced file List.mem_cons_self)
      (hfits file List.mem_cons_self) file.2.toUTF8
    obtain ⟨t', hrest, hsite'⟩ := ih hsite (fun f hf => hplaced f (List.mem_cons_of_mem file hf))
      fun f hf => hfits f (List.mem_cons_of_mem file hf)
    refine ⟨t', ?_, hsite'⟩
    rw [DocumentationOutput.writeFiles, hensure]
    dsimp only
    rw [hwrite]
    exact hrest

end PhpLint.DocumentationOutput
