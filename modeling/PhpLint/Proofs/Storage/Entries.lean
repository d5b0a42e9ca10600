import PhpLint.Proofs.Storage.Contract
import PhpLint.Proofs.Storage.Disk

/-!
The entries of a storage in files. Two addresses are one entry if the names of their files are the
same, and no other calls change what is restored.
-/
namespace PhpLint.FileStorage

open FileTree
open Storage (Address Call latest? dueReplies replies_eq_dueReplies)

variable {s : FileStorage} {t : FileTree} {past : List Call} {a a' : Address}

/-- The names of the files that stand for a domain and a key. -/
def fileNames (a : Address) : Address :=
  (fileName a.1, fileName a.2)

theorem entryPath_eq_of_fileNames_eq (h : fileNames a = fileNames a') :
    s.entryPath a.1 a.2 = s.entryPath a'.1 a'.2 := by
  obtain ⟨hdomain, hkey⟩ := Prod.mk.inj h
  unfold entryPath entryDirectory
  rw [hdomain, hkey]

theorem fileNames_eq_of_placeOf_eq {workingDirectory : Location}
    (h : placeOf workingDirectory (s.entryPath a.1 a.2) =
      placeOf workingDirectory (s.entryPath a'.1 a'.2)) : fileNames a = fileNames a' := by
  rw [placeOf_entryPath, placeOf_entryPath, List.append_cancel_left_eq] at h
  simp only [List.cons.injEq] at h
  exact Prod.ext h.1 h.2.2.1

/-! ### What is restored -/

/-- Data that is saved is put in one place, below directories that are made for it. -/
theorem save_eq_ok {domain key : String} {data : ByteArray}
    (h : (s.save domain key data t).1 = .ok ()) : ∃ t₁ l, t.Grows t₁ ∧
      t₁.locate (s.entryPath domain key) = .ok l ∧ t₁.node? l ≠ some .directory ∧
      (s.save domain key data t).2 = t₁.put l (.file data t₁.now) := by
  have hgrows := grows_ensureDirectories t (s.entryDirectory domain key)
  unfold save at h ⊢
  dsimp only at h ⊢
  split at h
  · exact nomatch h
  rename_i t₁ hensure
  rw [hensure] at hgrows
  split at h
  · rename_i t₂ hwrite
    unfold writeWhole at hwrite
    dsimp only at hwrite
    split_ifs at hwrite
    obtain ⟨l, hlocate, hnode, rfl⟩ := write_eq_ok.mp hwrite
    exact ⟨t₁, l, hgrows, hlocate, hnode, rfl⟩
  · exact nomatch h

/-- Every entry of a tree is what was saved last, and every place of an entry that was not saved is
without a file. -/
structure Recalls (s : FileStorage) (t : FileTree) (past : List Call) : Prop where
  read : ∀ {a data}, latest? fileNames past a = some data →
    t.read (s.entryPath a.1 a.2) = .ok data
  vacant : ∀ {a}, latest? fileNames past a = none → ∀ content modified,
    t.node? (placeOf t.workingDirectory (s.entryPath a.1 a.2)) ≠ some (.file content modified)

theorem Recalls.restore (h : s.Recalls t past) {a : Address}
    (hok : (s.restore a.1 a.2 t).1.isOk) :
    s.restore a.1 a.2 t = (.ok (latest? fileNames past a), t) := by
  unfold FileStorage.restore at hok ⊢
  cases hlatest : latest? fileNames past a with
  | some data => rw [h.read hlatest]
  | none =>
    split at hok
    · rename_i data hread
      obtain ⟨l, modified, hstat⟩ := read_eq_ok.mp hread
      obtain ⟨hlocate, hnode⟩ := stat_eq_ok.mp hstat
      rw [← placeOf_of_locate hlocate] at hnode
      exact absurd hnode (h.vacant hlatest data modified)
    · rfl
    · exact Bool.noConfusion hok

theorem Recalls.save (h : s.Recalls t past) {a : Address} {data : ByteArray}
    (hok : (s.save a.1 a.2 data t).1 = .ok ()) :
    s.Recalls (s.save a.1 a.2 data t).2 (.save a data :: past) := by
  obtain ⟨t₁, l, hgrows, hlocate, hnode, hsave⟩ := save_eq_ok hok
  have hkeeps := keepsDirectories_put hnode (.file data t₁.now)
  rw [hsave]
  constructor
  · intro a' data' hlatest
    rw [latest?] at hlatest
    split_ifs at hlatest with hnames
    · obtain rfl := Option.some.inj hlatest
      rw [← entryPath_eq_of_fileNames_eq hnames]
      exact read_eq_ok.mpr ⟨l, t₁.now,
        stat_eq_ok.mpr ⟨hkeeps.locate hlocate, node?_put_self (ne_nil_of_node? hnode) t₁ _⟩⟩
    · obtain ⟨l', modified, hstat⟩ := read_eq_ok.mp (h.read hlatest)
      have hstat₁ := hgrows.stat hstat
      obtain ⟨hlocate', hnode'⟩ := stat_eq_ok.mp hstat₁
      refine read_eq_ok.mpr ⟨l', modified, hkeeps.stat hstat₁ ?_⟩
      rw [node?_put_of_ne, hnode']
      rintro rfl
      exact hnames (fileNames_eq_of_placeOf_eq
        ((placeOf_of_locate hlocate).trans (placeOf_of_locate hlocate').symm))
  · intro a' hlatest content modified hfile
    have hnames : fileNames a ≠ fileNames a' := by
      intro heq
      rw [latest?, if_pos heq] at hlatest
      exact Option.some_ne_none data hlatest
    rw [latest?, if_neg hnames] at hlatest
    rw [workingDirectory_put, node?_put_of_ne] at hfile
    · have hfile' := hgrows.file hfile
      rw [hgrows.workingDirectory] at hfile'
      exact h.vacant hlatest content modified hfile'
    · intro hplace
      exact hnames (fileNames_eq_of_placeOf_eq ((placeOf_of_locate hlocate).trans hplace.symm))

theorem call_restore (s : FileStorage) (a : Address) (t : FileTree) :
    s.storage.call (.restore a) t = s.restore a.1 a.2 t := by
  unfold Storage.call storage
  with_reducible rfl

theorem call_save (s : FileStorage) (a : Address) (data : ByteArray) (t : FileTree) :
    s.storage.call (.save a data) t =
      ((s.save a.1 a.2 data t).1.map fun _ => none, (s.save a.1 a.2 data t).2) := by
  unfold Storage.call storage
  with_reducible rfl

/-- Whether there is no file below the root, which need not be there. -/
def IsVacant (s : FileStorage) (t : FileTree) : Prop :=
  ∀ names content modified,
    t.node? (placeOf t.workingDirectory s.root ++ names) ≠ some (.file content modified)

/-- Files answer what is due to their names, as long as they do not fail. -/
theorem replies_eq_of_isOk (hvacant : s.IsVacant t) {calls : List Call}
    (hok : ∀ r ∈ s.storage.replies calls t, r.isOk) :
    s.storage.replies calls t = dueReplies fileNames [] calls := by
  refine replies_eq_dueReplies (s.Recalls ·) (fun {t past} ht c hc => ?_) ?_ hok
  · cases c with
    | restore a =>
      rw [call_restore] at hc ⊢
      rw [ht.restore hc]
      exact ⟨rfl, ht.read, ht.vacant⟩
    | save a data =>
      rw [call_save] at hc ⊢
      dsimp only at hc ⊢
      have hsave : (s.save a.1 a.2 data t).1 = .ok () := by
        cases hresult : (s.save a.1 a.2 data t).1 with
        | ok => rfl
        | error e =>
          rw [hresult] at hc
          exact Bool.noConfusion hc
      rw [hsave]
      exact ⟨rfl, ht.save hsave⟩
  · refine ⟨fun hlatest => (nomatch hlatest), fun _ content modified => ?_⟩
    rw [placeOf_entryPath]
    exact hvacant _ content modified

end PhpLint.FileStorage
