import PhpLint.Proofs.Files.Directory
import PhpLint.Storage.Disk

/-! Where a storage in files keeps what, and what its operations do to the tree. -/
namespace PhpLint.FileStorage

open FileTree

variable {s : FileStorage} {t t' : FileTree} {key : String}

/-! ### Names -/

/-- Whether a character stays in the name of a file. -/
def isNameChar (c : Char) : Bool :=
  c.isAlphanum || c == '-' || c == '_' || c == '.'

theorem isNameChar_nameChar (c : Char) : isNameChar (nameChar c) := by
  unfold nameChar
  split_ifs with h
  · exact h
  · decide

theorem isNameChar_of_mem_fileName {c : Char} (h : c ∈ (fileName key).toList) : isNameChar c := by
  have hmap {c : Char} (h : c ∈ (String.ofList (key.toList.map nameChar)).toList) :
      isNameChar c := by
    rw [String.toList_ofList, List.mem_map] at h
    obtain ⟨d, _, rfl⟩ := h
    exact isNameChar_nameChar d
  unfold fileName at h
  dsimp only at h
  split_ifs at h
  · rw [String.toList_append, List.mem_append] at h
    rcases h with h | h
    · rw [List.mem_singleton.mp h]
      decide
    · exact hmap h
  · exact hmap h

/-- The name of a file for a key can stand in a path. -/
theorem isName_fileName (key : String) : Path.IsName (fileName key) := by
  have hslash : '/' ∉ (fileName key).toList := fun h =>
    absurd (isNameChar_of_mem_fileName h) (by decide)
  refine ⟨hslash, ?_⟩
  unfold fileName
  dsimp only
  split_ifs with h
  · simp only [Bool.or_eq_true, beq_iff_eq] at h
    rcases h with (h | h) | h
    all_goals
      rw [h]
      decide
  · simp only [Bool.or_eq_true, beq_iff_eq, not_or] at h
    refine ⟨?_, h.2⟩
    unfold Path.isIdle
    simpa using h.1

/-- So can what begins with such a name and ends with a suffix of its own. -/
theorem isName_lockName (key : String) : Path.IsName (fileName key ++ ".lock") := by
  have hlength : (fileName key ++ ".lock").toList.length = (fileName key).toList.length + 5 := by
    rw [String.toList_append, List.length_append]
    rfl
  refine ⟨?_, ?_, ?_⟩
  · rw [String.toList_append, List.mem_append]
    rintro (h | h)
    · exact (isName_fileName key).1 h
    · revert h
      decide
  · unfold Path.isIdle
    rw [Bool.or_eq_true, beq_iff_eq, beq_iff_eq]
    rintro (h | h)
    all_goals
      rw [h] at hlength
      simp at hlength
  · intro h
    rw [h] at hlength
    simp at hlength

theorem isNameChar_of_mem_shard {c : Char} (h : c ∈ (shard (fileName key)).toList) :
    isNameChar c ∧ c ≠ '.' := by
  rw [shard, String.toList_ofList, List.mem_map] at h
  obtain ⟨d, hd, rfl⟩ := h
  split_ifs with hpoint
  · decide
  · exact ⟨isNameChar_of_mem_fileName (List.mem_of_mem_take hd), by simpa using hpoint⟩

/-- The directory of the entries whose names begin alike can stand in a path, too. -/
theorem isName_shard (key : String) : Path.IsName (shard (fileName key)) := by
  have hpoint : '.' ∉ (shard (fileName key)).toList := fun h => (isNameChar_of_mem_shard h).2 rfl
  refine ⟨fun h => absurd (isNameChar_of_mem_shard h).1 (by decide), ?_, ?_⟩
  · unfold Path.isIdle
    rw [Bool.or_eq_true, beq_iff_eq, beq_iff_eq]
    rintro (h | h)
    · have hnil : (shard (fileName key)).toList = [] := by rw [h]; rfl
      rw [shard, String.toList_ofList, List.map_eq_nil_iff, List.take_eq_nil_iff] at hnil
      exact (isName_fileName key).toList_ne_nil (hnil.resolve_left (by decide))
    · exact hpoint (by rw [h]; decide)
  · intro h
    exact hpoint (by rw [h]; decide)

theorem utf8ByteSize_shard_le (name : String) : (shard name).utf8ByteSize ≤ longestName := by
  have hlen (cs : List Char) : String.utf8Len cs ≤ 4 * cs.length := by
    induction cs with
    | nil => exact le_rfl
    | cons c cs ih =>
      have hc := Char.utf8Size_le_four c
      rw [String.utf8Len_cons, List.length_cons]
      omega
  have hshard := hlen ((name.toList.take 2).map fun c => if c == '.' then '_' else c)
  rw [List.length_map, List.length_take] at hshard
  unfold shard longestName
  rw [String.utf8ByteSize_ofList]
  omega

/-! ### Places -/

theorem placeOf_lockPath (s : FileStorage) (key : String) (workingDirectory : Location) :
    placeOf workingDirectory (s.lockPath key) =
      placeOf workingDirectory s.lockDirectory ++ [fileName key ++ ".lock"] :=
  placeOf_extends (Path.extends_join (isName_lockName key) s.lockDirectory) workingDirectory

/-- The locks of two keys are in one place only if they are one file. -/
theorem lockPath_eq_of_placeOf_eq {key' : String} {workingDirectory : Location}
    (h : placeOf workingDirectory (s.lockPath key) = placeOf workingDirectory (s.lockPath key')) :
    s.lockPath key = s.lockPath key' := by
  rw [placeOf_lockPath, placeOf_lockPath, List.append_cancel_left_eq] at h
  unfold lockPath
  rw [List.singleton_inj.mp h]

theorem placeOf_entryPath (s : FileStorage) (domain key : String) (workingDirectory : Location) :
    placeOf workingDirectory (s.entryPath domain key) =
      placeOf workingDirectory s.root ++
        [fileName domain, shard (fileName key), fileName key] := by
  unfold entryPath entryDirectory
  rw [placeOf_extends (Path.extends_join (isName_fileName key) _),
    placeOf_extends (Path.extends_join (isName_shard key) _),
    placeOf_extends (Path.extends_join (isName_fileName domain) _)]
  simp

/-! ### Locks -/

/-- Whether a lock can be had at a place: nothing is there, or a lock that is old enough. -/
def IsFree (s : FileStorage) (t : FileTree) (l : Location) : Prop :=
  ∀ node, t.node? l = some node → ∃ content modified, node = .file content modified ∧
    modified ≤ t.now ∧ s.lockTimeout ≤ t.now - modified

/-- What an attempt to take a lock comes to, and the tree that it leaves. -/
inductive Attempt (s : FileStorage) (key : String) (t : FileTree) : Bool × FileTree → Prop
  | refused {t₁ : FileTree} (grows : t.Grows t₁) : Attempt s key t (false, t₁)
  /-- The file of the lock is made, also where there was one. -/
  | taken {t₁ : FileTree} {l : Location} (grows : t.Grows t₁)
      (place : t₁.locate (s.lockPath key) = .ok l) (free : s.IsFree t₁ l) :
      Attempt s key t (true, t₁.put l (.file .empty t₁.now))

theorem isFree_of_none {l : Location} (h : t.node? l = none) : s.IsFree t l := by
  intro node hnode
  rw [h] at hnode
  exact nomatch hnode

theorem IsFree.ne_directory {l : Location} (h : s.IsFree t l) : t.node? l ≠ some .directory := by
  intro hnode
  obtain ⟨_, _, hfile, _⟩ := h _ hnode
  exact Node.noConfusion hfile

theorem isStale_eq_true {path : String} : s.isStale path t = true ↔
    ∃ l content modified, t.stat path = .ok (l, .file content modified) ∧
      modified ≤ t.now ∧ s.lockTimeout ≤ t.now - modified := by
  unfold isStale
  constructor
  · intro h
    split at h
    · rename_i l content modified hstat
      rw [Bool.and_eq_true, decide_eq_true_eq, decide_eq_true_eq] at h
      exact ⟨l, content, modified, hstat, h⟩
    · contradiction
  · rintro ⟨l, content, modified, hstat, h⟩
    rw [hstat]
    simpa using h

/-- A stale lock is removed and made anew, which cannot fail. -/
theorem attempt_of_isStale {t₁ : FileTree} (hgrows : t.Grows t₁)
    (h : s.isStale (s.lockPath key) t₁ = true) :
    ∃ t₂ t₃, t₁.remove (s.lockPath key) = .ok t₂ ∧ t₂.create (s.lockPath key) = .ok t₃ ∧
      s.Attempt key t (true, t₃) := by
  obtain ⟨l, content, modified, hstat, hold⟩ := isStale_eq_true.mp h
  obtain ⟨hlocate, hnode⟩ := stat_eq_ok.mp hstat
  have hfile : t₁.node? l ≠ some .directory := by
    rw [hnode]
    simp
  have hne := ne_nil_of_node? hfile
  refine ⟨t₁.drop l, _, remove_eq_ok.mpr ⟨l, content, modified, hstat, rfl⟩, create_eq_ok.mpr
    ⟨l, (keepsDirectories_drop hfile).locate hlocate, node?_drop_self hne t₁, rfl⟩, ?_⟩
  rw [put_drop]
  refine .taken hgrows hlocate fun node h => ?_
  rw [hnode] at h
  exact ⟨content, modified, (Option.some.inj h).symm, hold⟩

theorem attempt_lock (s : FileStorage) (key : String) (t : FileTree) :
    s.Attempt key t (s.lock key t) := by
  have hgrows := grows_ensureDirectories t s.lockDirectory
  unfold lock
  dsimp only
  split
  · rename_i h
    rw [h] at hgrows
    exact .refused hgrows
  rename_i t₁ h
  rw [h] at hgrows
  split
  · rename_i t₂ hcreate
    obtain ⟨l, hlocate, hnode, rfl⟩ := create_eq_ok.mp hcreate
    exact .taken hgrows hlocate (isFree_of_none hnode)
  · split_ifs with hstale
    · exact .refused hgrows
    · obtain ⟨t₂, t₃, hremove, hcreate, hattempt⟩ :=
        attempt_of_isStale hgrows (by simpa using hstale)
      rw [hremove]
      dsimp only [Except.toOption, Option.getD]
      rw [hcreate]
      exact hattempt
  · exact .refused hgrows

/-- The time is the tree's own. -/
theorem now_lock (s : FileStorage) (key : String) (t : FileTree) :
    (s.lock key t).2.now = t.now := by
  have hattempt := attempt_lock s key t
  generalize s.lock key t = r at hattempt ⊢
  cases hattempt with
  | refused grows => exact grows.now
  | taken grows => exact grows.now

/-- A lock that was had is a file that was made just now. -/
theorem stat_lock (h : (s.lock key t).1 = true) :
    ∃ l, (s.lock key t).2.stat (s.lockPath key) = .ok (l, .file .empty t.now) := by
  have hattempt := attempt_lock s key t
  generalize s.lock key t = r at h hattempt ⊢
  cases hattempt with
  | refused => exact Bool.noConfusion h
  | @taken t₁ l grows place free =>
    have hnode := free.ne_directory
    refine ⟨l, stat_eq_ok.mpr ⟨(keepsDirectories_put hnode _).locate place, ?_⟩⟩
    rw [node?_put_self (ne_nil_of_node? hnode), grows.now]

/-- The directory of the locks is there if the place of a lock can be reached. -/
theorem ensureDirectories_lockDirectory {l : Location}
    (h : t.locate (s.lockPath key) = .ok l) :
    t.ensureDirectories s.lockDirectory = (.ok (), t) := by
  have hname : Path.IsName "locks" := by decide
  have hne : s.lockDirectory ≠ "" := Path.join_ne_empty hname s.root
  have hextends := Path.extends_join (isName_lockName key) s.lockDirectory
  obtain ⟨_, _, l₀, hdirectory, rfl⟩ := (locate_extends hextends hne).mp h
  exact ensureDirectories_of_stat hdirectory

/-- A lock whose file is gone can be had. -/
theorem lock_drop {l : Location} {content : ByteArray} {modified : Nat}
    (h : t.stat (s.lockPath key) = .ok (l, .file content modified)) :
    (s.lock key (t.drop l)).1 = true := by
  obtain ⟨hlocate, hnode⟩ := stat_eq_ok.mp h
  have hfile : t.node? l ≠ some .directory := by simp [hnode]
  have hthere := (keepsDirectories_drop hfile).locate hlocate
  have hcreate := create_eq_ok.mpr ⟨l, hthere, node?_drop_self (ne_nil_of_node? hfile) t, rfl⟩
  unfold lock
  rw [ensureDirectories_lockDirectory hthere]
  dsimp only
  rw [hcreate]

/-- A stale lock can be had. -/
theorem lock_of_isStale (h : s.isStale (s.lockPath key) t = true) : (s.lock key t).1 = true := by
  obtain ⟨l, content, modified, hstat, _⟩ := isStale_eq_true.mp h
  obtain ⟨t₂, t₃, hremove, hcreate, _⟩ := attempt_of_isStale (Grows.refl t) h
  unfold lock
  rw [ensureDirectories_lockDirectory (stat_eq_ok.mp hstat).1]
  dsimp only
  rw [create_of_stat hstat, h, hremove]
  dsimp only [Except.toOption, Option.getD]
  rw [hcreate]
  rfl

theorem release_of_stat {l : Location} {content : ByteArray} {modified : Nat}
    (h : t.stat (s.lockPath key) = .ok (l, .file content modified)) :
    s.release key t = t.drop l := by
  unfold release
  rw [remove_eq_ok.mpr ⟨l, content, modified, h, rfl⟩]
  rfl

/-- A lock is given up by removing its file, whoever made it. -/
theorem release_cases (s : FileStorage) (key : String) (t : FileTree) :
    s.release key t = t ∨ ∃ l content modified,
      t.stat (s.lockPath key) = .ok (l, .file content modified) ∧ s.release key t = t.drop l := by
  unfold release
  cases h : t.remove (s.lockPath key) with
  | error e => exact Or.inl rfl
  | ok t' =>
    obtain ⟨l, content, modified, hstat, rfl⟩ := remove_eq_ok.mp h
    exact Or.inr ⟨l, content, modified, hstat, rfl⟩

end PhpLint.FileStorage
