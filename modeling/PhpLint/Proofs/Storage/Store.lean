import PhpLint.Proofs.Storage.Entries

/-!
Storages in files that do not fail, and how far they are as good as one in memory: addresses whose
files have the same names are mixed up, and nothing else is.
-/
namespace PhpLint.FileStorage

open FileTree
open Storage (Address Call dueReplies)

variable {s : FileStorage} {t : FileTree} {l : Location} {a : Address}

/-- Whether the names and the path of an entry are short enough. -/
def Fits (s : FileStorage) (a : Address) : Prop :=
  (fileName a.1).utf8ByteSize ≤ longestName ∧
    (fileName a.2).utf8ByteSize + temporarySuffix ≤ longestName ∧
      (s.entryPath a.1 a.2).utf8ByteSize + temporarySuffix ≤ longestPath

instance (s : FileStorage) (a : Address) : Decidable (s.Fits a) :=
  inferInstanceAs (Decidable (_ ∧ _ ∧ _))

/-- Whether the root is an empty directory. -/
def IsFresh (s : FileStorage) (t : FileTree) : Prop :=
  ∃ l, t.stat s.root = .ok (l, .directory) ∧ ∀ names, names ≠ [] → t.node? (l ++ names) = none

/-- A place with a directory for each domain, in it directories, and in these the entries. -/
structure IsStore (s : FileStorage) (t : FileTree) (l : Location) : Prop where
  root : t.stat s.root = .ok (l, .directory)
  directory : ∀ {names}, names.length ≤ 2 → ∀ content modified,
    t.node? (l ++ names) ≠ some (.file content modified)
  entry : ∀ {names}, names.length = 3 → t.node? (l ++ names) ≠ some .directory

/-- The path of an entry and those of the directories around it are in order. -/
theorem checkPath_entryPath (hroot : checkPath s.root = .ok ()) (hfits : s.Fits a) :
    checkPath (s.entryPath a.1 a.2) = .ok () ∧ checkPath (s.entryDirectory a.1 a.2) = .ok () := by
  have hname {key : String} : '\x00' ∉ (fileName key).toList := fun h =>
    absurd (isNameChar_of_mem_fileName h) (by decide)
  have hshard : '\x00' ∉ (shard (fileName a.2)).toList := fun h =>
    absurd (isNameChar_of_mem_shard h).1 (by decide)
  have hjoin {base name : String} (h : Path.IsName name) (hbase : '\x00' ∉ base.toList)
      (hname : '\x00' ∉ name.toList) : '\x00' ∉ (Path.join base name).toList := by
    intro hmem
    rcases Path.mem_join h hmem with hmem | hmem | hmem
    · exact hbase hmem
    · exact absurd hmem (by decide)
    · exact hname hmem
  have hdomain := isName_fileName a.1
  have hkey := isName_fileName a.2
  have hentry : checkPath (s.entryPath a.1 a.2) = .ok () := by
    refine checkPath_eq_ok.mpr ⟨hjoin hkey (hjoin (isName_shard a.2) (hjoin hdomain
      (checkPath_eq_ok.mp hroot).1 hname) hshard) hname, Path.join_ne_empty hkey _, ?_⟩
    unfold isShort
    exact decide_eq_true (le_trans (Nat.le_add_right _ _) hfits.2.2)
  exact ⟨hentry, checkPath_of_extends (Path.extends_join hkey _)
    (Path.join_ne_empty (isName_shard a.2) _) hentry⟩

/-- The directory of an entry is the second one below the root. -/
theorem descends_entryDirectory (s : FileStorage) (a : Address) : ∃ rest,
    Path.ancestors (s.entryDirectory a.1 a.2) = s.entryDirectory a.1 a.2 :: rest ∧
      Path.Descends s.root [fileName a.1, shard (fileName a.2)] (s.entryDirectory a.1 a.2) rest :=
  Path.descends_ancestors_join (isName_fileName a.1) (isName_shard a.2) s.root

theorem Fits.directory_le (h : s.Fits a) : ∀ name ∈ [fileName a.1, shard (fileName a.2)],
    name.utf8ByteSize ≤ longestName := by
  rw [List.forall_mem_cons, List.forall_mem_singleton]
  exact ⟨h.1, utf8ByteSize_shard_le _⟩

theorem Fits.fileName_le (h : s.Fits a) : (fileName a.2).utf8ByteSize ≤ longestName :=
  le_trans (Nat.le_add_right _ _) h.2.1

/-- Nothing but an entry can be found at its path. -/
theorem IsStore.restore_isOk (h : s.IsStore t l) (hfits : s.Fits a) :
    (s.restore a.1 a.2 t).1.isOk := by
  obtain ⟨hentry, hdirectory⟩ := checkPath_entryPath (checkPath_of_stat h.root) hfits
  obtain ⟨_, _, hdescends⟩ := descends_entryDirectory s a
  have hextends := Path.extends_join (isName_fileName a.2) (s.entryDirectory a.1 a.2)
  have hread : (∃ data, t.read (s.entryPath a.1 a.2) = .ok data) ∨
      t.read (s.entryPath a.1 a.2) = .error .notFound := by
    rcases stat_descends hdescends hdirectory hfits.directory_le h.root
      (fun ns hns => h.directory hns.length_le) with hstat₂ | hstat₂
    · have hstat := stat_extends hextends hentry hfits.fileName_le hstat₂
      rw [List.append_assoc] at hstat
      rcases hnode : t.node? (l ++ ([fileName a.1, shard (fileName a.2)] ++ [fileName a.2]))
        with _ | _ | ⟨data, modified⟩
      · rw [hnode] at hstat
        exact Or.inr (read_of_stat hstat)
      · exact absurd hnode (h.entry (by simp))
      · rw [hnode] at hstat
        exact Or.inl ⟨data, read_eq_ok.mpr ⟨_, modified, hstat⟩⟩
    · exact Or.inr (read_of_stat
        (stat_extends_of_notFound hextends (ne_empty_of_checkPath hdirectory) hentry hstat₂))
  unfold FileStorage.restore
  rcases hread with ⟨data, hread⟩ | hread
  · rw [hread]
    rfl
  · rw [hread]
    rfl

theorem IsStore.put (h : s.IsStore t l) {names : List String} (hlength : names.length = 3)
    (data : ByteArray) (modified : Nat) :
    s.IsStore (t.put (l ++ names) (.file data modified)) l := by
  have hkeeps := keepsDirectories_put (h.entry hlength) (.file data modified)
  refine ⟨hkeeps.stat h.root (hkeeps.node?_directory (stat_eq_ok.mp h.root).2), ?_, ?_⟩
  · intro names' hlength' content' modified'
    rw [node?_put_of_ne]
    · exact h.directory hlength' content' modified'
    · intro heq
      rw [List.append_cancel_left heq] at hlength'
      omega
  · intro names' hlength'
    by_cases heq : l ++ names' = l ++ names
    · rw [heq, node?_put_self (ne_nil_of_node? (h.entry hlength))]
      exact fun hnode => Node.noConfusion (Option.some.inj hnode)
    · rw [node?_put_of_ne heq]
      exact h.entry hlength'

/-- What is saved finds its directories, or they can be made, and a place for its file. -/
theorem IsStore.save (h : s.IsStore t l) (hfits : s.Fits a) (data : ByteArray) :
    (s.save a.1 a.2 data t).1 = .ok () ∧ s.IsStore (s.save a.1 a.2 data t).2 l := by
  obtain ⟨hentry, hdirectory⟩ := checkPath_entryPath (checkPath_of_stat h.root) hfits
  obtain ⟨_, hancestors, hdescends⟩ := descends_entryDirectory s a
  have hgrows := grows_ensureDirectories t (s.entryDirectory a.1 a.2)
  obtain ⟨t₁, hensure, hstat, hothers⟩ := ensureFirst_descends hdescends hdirectory
    hfits.directory_le h.root fun ns hns => h.directory hns.length_le
  rw [← hancestors] at hensure
  change t.ensureDirectories (s.entryDirectory a.1 a.2) = _ at hensure
  rw [hensure] at hgrows
  have hstore₁ : s.IsStore t₁ l := by
    refine ⟨hgrows.stat h.root, fun hlength content modified hfile => ?_, fun {names} hlength => ?_⟩
    · exact h.directory hlength content modified (hgrows.file hfile)
    · rw [hothers _ fun ns _ hns heq => ?_]
      · exact h.entry hlength
      · have hle : ns.length ≤ 2 := hns.length_le
        rw [← List.append_cancel_left heq] at hle
        omega
  have hwrite : writeWhole (s.entryDirectory a.1 a.2) (fileName a.2) data t₁ = .ok
      (t₁.put (l ++ [fileName a.1, shard (fileName a.2), fileName a.2]) (.file data t₁.now)) := by
    have hextends := Path.extends_join (isName_fileName a.2) (s.entryDirectory a.1 a.2)
    have hlocate := (locate_extends hextends (ne_empty_of_checkPath hdirectory)).mpr
      ⟨hentry, hfits.fileName_le, _, hstat, rfl⟩
    rw [List.append_assoc] at hlocate
    have hshort : ¬ (longestName < (fileName a.2).utf8ByteSize + temporarySuffix ∨
        longestPath < (s.entryPath a.1 a.2).utf8ByteSize + temporarySuffix) := by
      have hname := hfits.2.1
      have hpath := hfits.2.2
      omega
    unfold writeWhole
    dsimp only
    rw [if_neg (by simpa [entryPath] using hshort)]
    exact write_eq_ok.mpr ⟨_, hlocate, hstore₁.entry (by simp), rfl⟩
  unfold FileStorage.save
  dsimp only
  rw [hensure]
  dsimp only
  rw [hwrite]
  exact ⟨rfl, hstore₁.put (by simp) data t₁.now⟩

theorem IsStore.call (h : s.IsStore t l) (c : Call) (hfits : s.Fits c.address) :
    (s.storage.call c t).1.isOk ∧ s.IsStore (s.storage.call c t).2 l := by
  cases c with
  | restore a =>
    have hsame : (s.restore a.1 a.2 t).2 = t := by
      unfold FileStorage.restore
      split <;> rfl
    rw [call_restore, hsame]
    exact ⟨h.restore_isOk hfits, h⟩
  | save a data =>
    have hsave : s.Fits a := hfits
    obtain ⟨hok, hstore⟩ := h.save hsave data
    rw [call_save, hok]
    dsimp only
    exact ⟨rfl, hstore⟩

/-- No call fails in a store whose entries are short enough. -/
theorem IsStore.replies_isOk (h : s.IsStore t l) {calls : List Call}
    (hfits : ∀ c ∈ calls, s.Fits c.address) : ∀ r ∈ s.storage.replies calls t, r.isOk := by
  induction calls generalizing t with
  | nil => exact fun _ hr => absurd hr List.not_mem_nil
  | cons c calls ih =>
    obtain ⟨hok, hnext⟩ := h.call c (hfits c List.mem_cons_self)
    rw [Storage.replies]
    exact List.forall_mem_cons.mpr
      ⟨hok, ih hnext fun c' hc' => hfits c' (List.mem_cons_of_mem c hc')⟩

/-- A directory with nothing in it holds no file. -/
theorem not_file_of_empty (hroot : t.stat s.root = .ok (l, .directory))
    (hnone : ∀ names, names ≠ [] → t.node? (l ++ names) = none) (names : List String)
    (content : ByteArray) (modified : Nat) :
    t.node? (l ++ names) ≠ some (.file content modified) := by
  by_cases hnames : names = []
  · rw [hnames, List.append_nil, (stat_eq_ok.mp hroot).2]
    exact fun hfile => Node.noConfusion (Option.some.inj hfile)
  · rw [hnone names hnames]
    exact nofun

theorem IsFresh.isStore (h : s.IsFresh t) : ∃ l, s.IsStore t l := by
  obtain ⟨l, hroot, hnone⟩ := h
  refine ⟨l, hroot, fun _ => not_file_of_empty hroot hnone _, fun {names} hlength => ?_⟩
  have hnames : names ≠ [] := by
    rintro rfl
    exact absurd hlength (by simp)
  rw [hnone names hnames]
  exact nofun

theorem IsFresh.isVacant (h : s.IsFresh t) : s.IsVacant t := by
  obtain ⟨l, hroot, hnone⟩ := h
  intro names content modified
  rw [placeOf_of_locate (stat_eq_ok.mp hroot).1]
  exact not_file_of_empty hroot hnone names content modified

/-! ### The contract -/

/-- What is restored is what was saved last: in memory at the address itself, and in files, as long
as these do not fail, at the names that stand for it. In an empty directory they fail for no entry
that is short enough, and they keep the contract exactly where no two addresses have one name. -/
theorem restores_latest (s : FileStorage) (t : FileTree) (hvacant : s.IsVacant t) :
    (∀ calls, MemoryStorage.storage.replies calls .empty = dueReplies id [] calls) ∧
      (∀ calls, (∀ r ∈ s.storage.replies calls t, r.isOk) →
        s.storage.replies calls t = dueReplies fileNames [] calls) ∧
      (s.IsFresh t →
        (∀ calls : List Call, (∀ c ∈ calls, s.Fits c.address) →
          ∀ r ∈ s.storage.replies calls t, r.isOk) ∧
        ∀ A : Set Address, (∀ a ∈ A, s.Fits a) →
          ((∀ calls : List Call, (∀ c ∈ calls, c.address ∈ A) →
            s.storage.replies calls t = dueReplies id [] calls) ↔ A.InjOn fileNames)) := by
  refine ⟨Storage.memory_replies, fun calls => replies_eq_of_isOk hvacant, fun hfresh => ?_⟩
  obtain ⟨l, hstore⟩ := hfresh.isStore
  refine ⟨fun calls => hstore.replies_isOk, fun A hfits => ?_⟩
  rw [← Storage.dueReplies_eq_iff_injOn]
  refine forall_congr' fun calls => forall_congr' fun hcalls => ?_
  rw [replies_eq_of_isOk hvacant (hstore.replies_isOk fun c hc => hfits _ (hcalls c hc))]

private theorem isFresh_newDirectory : IsFresh ⟨"/data", 60⟩ (.ofDirectory ["data"] 0) := by
  exact ⟨["data"], stat_eq_ok.mpr ⟨by decide +kernel, rfl⟩,
    fun names => node?_ofDirectory_append ["data"] 0⟩

/-- A key in two domains: what is saved in one of them is restored from it, and not from the
other. -/
theorem restores_latest_two_domains :
    IsVacant ⟨"/data", 60⟩ (.ofDirectory ["data"] 0) ∧
      (storage ⟨"/data", 60⟩).replies [.save ("lint", "abc") "payload".toUTF8,
          .restore ("lint", "abc"), .restore ("doc", "abc")] (.ofDirectory ["data"] 0) =
        [.ok none, .ok (some "payload".toUTF8), .ok none] := by
  have hvacant := isFresh_newDirectory.isVacant
  have hkeeps := ((restores_latest ⟨"/data", 60⟩ (.ofDirectory ["data"] 0) hvacant).2.2
    isFresh_newDirectory).2
  have hinj : Set.InjOn fileNames {("lint", "abc"), ("doc", "abc")} := by
    rintro a (rfl | rfl) b (rfl | rfl) h
    · rfl
    · exact absurd h (by decide +kernel)
    · exact absurd h (by decide +kernel)
    · rfl
  have hfits : ∀ a ∈ ({("lint", "abc"), ("doc", "abc")} : Set Address), Fits ⟨"/data", 60⟩ a := by
    rintro a (rfl | rfl)
    · decide +kernel
    · decide +kernel
  refine ⟨hvacant, ?_⟩
  rw [(hkeeps _ hfits).mpr hinj _ (by simp [Call.address])]
  decide +kernel

/-- Two keys with the same name: what was saved for one of them is restored for the other. -/
theorem not_restores_latest : ¬ ∀ (s : FileStorage) (t : FileTree), s.IsFresh t →
    ∀ calls : List Call, (∀ c ∈ calls, s.Fits c.address) →
      s.storage.replies calls t = dueReplies id [] calls := by
  intro hlatest
  have hfits : ∀ c ∈ [Call.save ("d", "a/b") "x".toUTF8, .restore ("d", "a_b")],
      Fits ⟨"/data", 60⟩ c.address := by
    decide +kernel
  have hreplies := hlatest _ _ isFresh_newDirectory _ hfits
  revert hreplies
  decide +kernel

end PhpLint.FileStorage
