import PhpLint.Proofs.Files.Below
import PhpLint.Proofs.Storage.Entries

/-!
Paths of entries and locks. Whatever a domain and a key are, they become names below the root, and
what is an entry, a lock or a directory of them is nothing else.
-/
namespace PhpLint

namespace FileStorage

open FileTree

variable {s : FileStorage} {t : FileTree} {domain key : String}

/-- A name of letters, digits, hyphens, underscores and points that stands for itself in a path. -/
structure IsPlainName (name : String) : Prop where
  ne_empty : name ≠ ""
  chars : ∀ c ∈ name.toList, isNameChar c
  ne_point : name ≠ "."
  ne_points : name ≠ ".."

theorem isPlainName_of_isName {name : String} (h : Path.IsName name)
    (hchars : ∀ c ∈ name.toList, isNameChar c) : IsPlainName name where
  ne_empty := by
    rintro rfl
    exact h.2.1 rfl
  chars := hchars
  ne_point := by
    rintro rfl
    exact h.2.1 rfl
  ne_points := h.2.2

theorem isPlainName_fileName (key : String) : IsPlainName (fileName key) :=
  isPlainName_of_isName (isName_fileName key) fun _ hc => isNameChar_of_mem_fileName hc

theorem isPlainName_shard (key : String) : IsPlainName (shard (fileName key)) :=
  isPlainName_of_isName (isName_shard key) fun _ hc => (isNameChar_of_mem_shard hc).1

theorem isPlainName_lockName (key : String) : IsPlainName (fileName key ++ ".lock") := by
  refine isPlainName_of_isName (isName_lockName key) fun c hc => ?_
  rw [String.toList_append, List.mem_append] at hc
  rcases hc with hc | hc
  · exact isNameChar_of_mem_fileName hc
  · have hlock : ∀ c ∈ ".lock".toList, isNameChar c := by simp [isNameChar]
    exact hlock c hc

theorem isPlainName_locks : IsPlainName "locks" :=
  isPlainName_of_isName (by decide) (by simp [isNameChar, Char.isAlphanum])

/-! ### Paths below the root -/

theorem below?_entryPath (s : FileStorage) (domain key : String) :
    Path.below? s.root (s.entryPath domain key) =
      some [fileName domain, shard (fileName key), fileName key] := by
  unfold entryPath entryDirectory
  apply Path.below?_of_components
  · rw [Path.isAbsolute_join (isName_fileName key), Path.isAbsolute_join (isName_shard key),
      Path.isAbsolute_join (isName_fileName domain)]
  · rw [Path.components_join (isName_fileName key), Path.components_join (isName_shard key),
      Path.components_join (isName_fileName domain), List.append_assoc, List.append_assoc]
    rfl

theorem below?_lockPath (s : FileStorage) (key : String) :
    Path.below? s.root (s.lockPath key) = some ["locks", fileName key ++ ".lock"] := by
  have hlocks : Path.IsName "locks" := by decide
  unfold lockPath lockDirectory
  apply Path.below?_of_components
  · rw [Path.isAbsolute_join (isName_lockName key), Path.isAbsolute_join hlocks]
  · rw [Path.components_join (isName_lockName key), Path.components_join hlocks, List.append_assoc]
    rfl

/-! ### Places -/

/-- The places of entries, of locks and of their directories, from that of the root on. -/
theorem placeOf_lockPath_root (s : FileStorage) (key : String) (workingDirectory : Location) :
    placeOf workingDirectory (s.lockPath key) =
      placeOf workingDirectory s.root ++ ["locks", fileName key ++ ".lock"] := by
  have hlocks : Path.IsName "locks" := by decide
  rw [placeOf_lockPath, lockDirectory, placeOf_extends (Path.extends_join hlocks s.root),
    List.append_assoc]
  rfl

theorem placeOf_entryDirectory (s : FileStorage) (domain key : String)
    (workingDirectory : Location) : placeOf workingDirectory (s.entryDirectory domain key) =
      placeOf workingDirectory s.root ++ [fileName domain, shard (fileName key)] := by
  unfold entryDirectory
  rw [placeOf_extends (Path.extends_join (isName_shard key) _),
    placeOf_extends (Path.extends_join (isName_fileName domain) s.root), List.append_assoc]
  rfl

/-- The directory of some entries is no lock, for it has no point in its name. -/
theorem lockName_ne_shard (key key' : String) : fileName key ++ ".lock" ≠ shard (fileName key') := by
  intro h
  have hmem : '.' ∈ (shard (fileName key')).toList := by
    rw [← h]
    simp
  exact (isNameChar_of_mem_shard hmem).2 rfl

/-! ### What changes -/

theorem keepsFiles_save (s : FileStorage) (domain key : String) (data : ByteArray) (t : FileTree) :
    KeepsFiles (¬ placeOf t.workingDirectory s.root <+: ·) t (s.save domain key data t).2 := by
  have hgrows := grows_ensureDirectories t (s.entryDirectory domain key)
  cases hresult : (s.save domain key data t).1 with
  | ok =>
    obtain ⟨t₁, l, hgrows, hlocate, _, heq⟩ := save_eq_ok hresult
    have hplace := placeOf_of_locate hlocate
    rw [placeOf_entryPath, hgrows.workingDirectory] at hplace
    rw [heq]
    exact (hgrows.keepsFiles _).trans (keepsFiles_put (fun hout => hout (hplace ▸ List.prefix_append _ _)) t₁ _)
  | error e =>
    -- what fails has made directories at most
    refine Grows.keepsFiles ?_ _
    unfold save at hresult ⊢
    dsimp only at hresult ⊢
    split
    · rename_i t₁ hensure
      rw [hensure] at hgrows
      exact hgrows
    · rename_i t₁ hensure
      rw [hensure] at hgrows hresult
      dsimp only at hresult ⊢
      split
      · rename_i hwrite
        rw [hwrite] at hresult
        exact nomatch hresult
      · exact hgrows

theorem keepsFiles_lock (s : FileStorage) (key : String) (t : FileTree) :
    KeepsFiles (¬ placeOf t.workingDirectory s.root <+: ·) t (s.lock key t).2 := by
  have hattempt := attempt_lock s key t
  generalize s.lock key t = r at hattempt ⊢
  cases hattempt with
  | refused grows => exact grows.keepsFiles _
  | @taken t₁ l grows place free =>
    have hplace := placeOf_of_locate place
    rw [placeOf_lockPath_root, grows.workingDirectory] at hplace
    exact (grows.keepsFiles _).trans (keepsFiles_put (fun hout => hout (hplace ▸ List.prefix_append _ _)) t₁ _)

theorem keepsFiles_release (s : FileStorage) (key : String) (t : FileTree) :
    KeepsFiles (¬ placeOf t.workingDirectory s.root <+: ·) t (s.release key t) := by
  rcases s.release_cases key t with heq | ⟨l, content, modified, hstat, heq⟩
  · rw [heq]
    exact fun _ _ _ _ => Iff.rfl
  · have hplace := placeOf_of_locate (stat_eq_ok.mp hstat).1
    rw [placeOf_lockPath_root] at hplace
    rw [heq]
    exact keepsFiles_drop (fun hout => hout (hplace ▸ List.prefix_append _ _)) t

theorem placeOf_entryPath_length (s : FileStorage) (domain key : String)
    (workingDirectory : Location) : (placeOf workingDirectory (s.entryPath domain key)).length =
      (placeOf workingDirectory s.root).length + 3 := by
  rw [placeOf_entryPath, List.length_append]
  rfl

/--
An entry is three names below the root and a lock two, whatever the domain and the key are. No entry
is a lock or a directory that an entry or a lock needs, and no lock is a directory of an entry. No
call changes a file outside of the root.
-/
theorem paths_stay_below_root (s : FileStorage) (t : FileTree) :
    (∀ domain key, ∃ a b c, IsPlainName a ∧ IsPlainName b ∧ IsPlainName c ∧
      Path.below? s.root (s.entryPath domain key) = some [a, b, c] ∧
      placeOf t.workingDirectory (s.entryPath domain key) =
        placeOf t.workingDirectory s.root ++ [a, b, c]) ∧
    (∀ key, ∃ a b, IsPlainName a ∧ IsPlainName b ∧
      Path.below? s.root (s.lockPath key) = some [a, b] ∧
      placeOf t.workingDirectory (s.lockPath key) = placeOf t.workingDirectory s.root ++ [a, b]) ∧
    (∀ domain key key', placeOf t.workingDirectory (s.entryPath domain key) ≠
      placeOf t.workingDirectory (s.lockPath key')) ∧
    (∀ domain key domain' key', ¬ placeOf t.workingDirectory (s.entryPath domain key) <+:
      placeOf t.workingDirectory (s.entryDirectory domain' key')) ∧
    (∀ domain key, ¬ placeOf t.workingDirectory (s.entryPath domain key) <+:
      placeOf t.workingDirectory s.lockDirectory) ∧
    (∀ key domain' key', ¬ placeOf t.workingDirectory (s.lockPath key) <+:
      placeOf t.workingDirectory (s.entryDirectory domain' key')) ∧
    ∀ domain key data,
      KeepsFiles (¬ placeOf t.workingDirectory s.root <+: ·) t (s.save domain key data t).2 ∧
      (s.restore domain key t).2 = t ∧
      KeepsFiles (¬ placeOf t.workingDirectory s.root <+: ·) t (s.lock key t).2 ∧
      KeepsFiles (¬ placeOf t.workingDirectory s.root <+: ·) t (s.release key t) := by
  refine ⟨fun domain key => ?_, fun key => ?_, fun domain key key' heq => ?_,
    fun domain key domain' key' hbelow => ?_, fun domain key hbelow => ?_,
    fun key domain' key' hbelow => ?_, fun domain key data => ?_⟩
  · exact ⟨_, _, _, isPlainName_fileName domain, isPlainName_shard key, isPlainName_fileName key,
      s.below?_entryPath domain key, s.placeOf_entryPath domain key _⟩
  · exact ⟨_, _, isPlainName_locks, isPlainName_lockName key, s.below?_lockPath key,
      s.placeOf_lockPath_root key _⟩
  · have hlength := congrArg List.length heq
    rw [placeOf_entryPath_length, placeOf_lockPath_root, List.length_append] at hlength
    exact absurd (Nat.add_left_cancel hlength) (by simp)
  · have hlength := hbelow.length_le
    rw [placeOf_entryPath_length, placeOf_entryDirectory, List.length_append] at hlength
    exact absurd (Nat.le_of_add_le_add_left hlength) (by simp)
  · have hlength := hbelow.length_le
    rw [placeOf_entryPath_length, lockDirectory,
      placeOf_extends (Path.extends_join (by decide) s.root), List.length_append] at hlength
    exact absurd (Nat.le_of_add_le_add_left hlength) (by simp)
  · rw [placeOf_lockPath_root, placeOf_entryDirectory, List.prefix_append_right_inj] at hbelow
    have heq := List.cons.inj (hbelow.eq_of_length (by simp))
    exact lockName_ne_shard key key' (List.cons.inj heq.2).1
  · refine ⟨s.keepsFiles_save domain key data t, ?_, s.keepsFiles_lock key t,
      s.keepsFiles_release key t⟩
    unfold restore
    split <;> rfl

end FileStorage

end PhpLint
