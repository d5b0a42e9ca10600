import PhpLint.Proofs.Storage.Disk

/-!
Users that share the locks of a storage in files. The file of a lock does not say whose it is, so
that a user whose lock was reclaimed can remove the file of another one.
-/
namespace PhpLint.FileStorage

open FileTree

/-- A lock that a user has taken and not given up. -/
structure Hold (User : Type) where
  user : User
  key : String
  /-- When the lock was taken. -/
  since : Nat

/-- The tree that some users share, and the locks that they hold. -/
structure Users (User : Type) where
  tree : FileTree
  holds : Set (Hold User)

variable {User : Type} {s : FileStorage} {mayRelease : Users User → Hold User → Prop}
  {u u' : Users User} {h h' : Hold User}

/-- Whether a lock has not reached the age at which it can be reclaimed. -/
def IsYoung (s : FileStorage) (now : Nat) (h : Hold User) : Prop :=
  now - h.since < s.lockTimeout

instance (s : FileStorage) (now : Nat) (h : Hold User) : Decidable (s.IsYoung now h) :=
  inferInstanceAs (Decidable (now - h.since < s.lockTimeout))

/-- What the users can do next. Who takes a lock again holds it once. A lock is given up by a user
that holds it, where the users allow it. -/
inductive Step (s : FileStorage) (mayRelease : Users User → Hold User → Prop) :
    Users User → Users User → Prop
  | wait (u : Users User) (seconds : Nat) :
      Step s mayRelease u { u with tree := { u.tree with now := u.tree.now + seconds } }
  | acquire (u : Users User) (user : User) (key : String) (granted : (s.lock key u.tree).1 = true) :
      Step s mayRelease u ⟨(s.lock key u.tree).2, insert ⟨user, key, u.tree.now⟩
        {h | h ∈ u.holds ∧ ¬ (h.user = user ∧ h.key = key)}⟩
  | refuse (u : Users User) (key : String) (refused : (s.lock key u.tree).1 = false) :
      Step s mayRelease u { u with tree := (s.lock key u.tree).2 }
  | release (u : Users User) (h : Hold User) (hold : h ∈ u.holds) (may : mayRelease u h) :
      Step s mayRelease u ⟨s.release h.key u.tree, u.holds \ {h}⟩

/-- What users come to that begin without a lock. -/
def Reaches (s : FileStorage) (mayRelease : Users User → Hold User → Prop) (t : FileTree) :
    Users User → Prop :=
  Relation.ReflTransGen (Step s mayRelease) ⟨t, ∅⟩

/-- No two users hold the same lock, old locks apart. -/
def Exclusive (s : FileStorage) (u : Users User) : Prop :=
  ∀ h ∈ u.holds, ∀ h' ∈ u.holds, h.key = h'.key →
    s.IsYoung u.tree.now h → s.IsYoung u.tree.now h' → h.user = h'.user

/-- A lock that is old is not given up while one with the same file is young. -/
def Considerate (s : FileStorage) (u : Users User) (h : Hold User) : Prop :=
  s.IsYoung u.tree.now h ∨
    ∀ h' ∈ u.holds, s.lockPath h'.key = s.lockPath h.key → ¬ s.IsYoung u.tree.now h'

/-! ### The invariant -/

/-- Every young lock has its file, which no other young lock shares. -/
structure Backed (s : FileStorage) (u : Users User) : Prop where
  file : ∀ {h}, h ∈ u.holds → s.IsYoung u.tree.now h →
    ∃ l content, u.tree.stat (s.lockPath h.key) = .ok (l, .file content h.since)
  unique : ∀ {h h'}, h ∈ u.holds → h' ∈ u.holds → s.lockPath h.key = s.lockPath h'.key →
    s.IsYoung u.tree.now h → s.IsYoung u.tree.now h' → h = h'

theorem backed_empty (s : FileStorage) (t : FileTree) :
    s.Backed (⟨t, ∅⟩ : Users User) where
  file hmem := absurd hmem (Set.notMem_empty _)
  unique hmem := absurd hmem (Set.notMem_empty _)

theorem Backed.exclusive (hu : s.Backed u) : s.Exclusive u := by
  intro h hmem h' hmem' hkey hyoung hyoung'
  rw [hu.unique hmem hmem' (by rw [hkey]) hyoung hyoung']

theorem Backed.wait (hu : s.Backed u) (seconds : Nat) :
    s.Backed { u with tree := { u.tree with now := u.tree.now + seconds } } := by
  have hyoung {h : Hold User} (hlater : s.IsYoung (u.tree.now + seconds) h) :
      s.IsYoung u.tree.now h := by
    unfold IsYoung at hlater ⊢
    omega
  refine ⟨fun hmem hlater => ?_, fun hmem hmem' hpath hlater hlater' =>
    hu.unique hmem hmem' hpath (hyoung hlater) (hyoung hlater')⟩
  obtain ⟨l, content, hstat⟩ := hu.file hmem (hyoung hlater)
  exact ⟨l, content, (keepsDirectories_now u.tree _).stat hstat (stat_eq_ok.mp hstat).2⟩

theorem Backed.grows {t : FileTree} (hu : s.Backed u) (hgrows : u.tree.Grows t) :
    s.Backed { u with tree := t } where
  file hmem hyoung := by
    obtain ⟨l, content, hstat⟩ := hu.file hmem (hgrows.now ▸ hyoung)
    exact ⟨l, content, hgrows.stat hstat⟩
  unique hmem hmem' hpath hyoung hyoung' :=
    hu.unique hmem hmem' hpath (hgrows.now ▸ hyoung) (hgrows.now ▸ hyoung')

/-- A lock that can be had is not the file of a young lock. -/
theorem Backed.lockPath_ne {key : String} {l : Location} (hu : s.Backed u)
    (hplace : u.tree.locate (s.lockPath key) = .ok l) (hfree : s.IsFree u.tree l)
    (hmem : h ∈ u.holds) (hyoung : s.IsYoung u.tree.now h) :
    s.lockPath h.key ≠ s.lockPath key := by
  intro hpath
  obtain ⟨l', content, hstat⟩ := hu.file hmem hyoung
  rw [hpath, stat_eq_ok, hplace] at hstat
  obtain ⟨hl, hnode⟩ := hstat
  obtain rfl := Except.ok.inj hl
  obtain ⟨_, modified, hfile, _, hold⟩ := hfree _ hnode
  obtain ⟨_, rfl⟩ := Node.file.inj hfile
  unfold IsYoung at hyoung
  omega

/-- The file of a young lock stays when another one is changed. -/
theorem Backed.file_of_ne {key : String} {l : Location} {t : FileTree} (hu : s.Backed u)
    (hplace : u.tree.locate (s.lockPath key) = .ok l) (hkeeps : u.tree.KeepsDirectories t)
    (hothers : ∀ l', l' ≠ l → t.node? l' = u.tree.node? l') (hmem : h ∈ u.holds)
    (hyoung : s.IsYoung u.tree.now h) (hpath : s.lockPath h.key ≠ s.lockPath key) :
    ∃ l content, t.stat (s.lockPath h.key) = .ok (l, .file content h.since) := by
  obtain ⟨l', content, hstat⟩ := hu.file hmem hyoung
  obtain ⟨hlocate, hnode⟩ := stat_eq_ok.mp hstat
  refine ⟨l', content, hkeeps.stat hstat ?_⟩
  rw [hothers, hnode]
  rintro rfl
  exact hpath (lockPath_eq_of_placeOf_eq
    ((placeOf_of_locate hlocate).trans (placeOf_of_locate hplace).symm))

theorem Backed.taken {key : String} {l : Location} (hu : s.Backed u)
    (hplace : u.tree.locate (s.lockPath key) = .ok l) (hfree : s.IsFree u.tree l) (user : User) :
    s.Backed ⟨u.tree.put l (.file .empty u.tree.now), insert ⟨user, key, u.tree.now⟩
      {h | h ∈ u.holds ∧ ¬ (h.user = user ∧ h.key = key)}⟩ := by
  have hne {h : Hold User} (hmem : h ∈ u.holds) (hyoung : s.IsYoung u.tree.now h) :
      s.lockPath h.key ≠ s.lockPath key := hu.lockPath_ne hplace hfree hmem hyoung
  have hnode : u.tree.node? l ≠ some .directory := hfree.ne_directory
  refine ⟨?_, ?_⟩
  · rintro h (rfl | ⟨hmem, -⟩) hyoung
    · refine ⟨l, .empty, stat_eq_ok.mpr ⟨(keepsDirectories_put hnode _).locate hplace, ?_⟩⟩
      exact node?_put_self (ne_nil_of_node? hnode) u.tree _
    · exact hu.file_of_ne hplace (keepsDirectories_put hnode _)
        (fun l' hl' => node?_put_of_ne hl' u.tree _) hmem hyoung (hne hmem hyoung)
  · rintro h h' (rfl | ⟨hmem, -⟩) (rfl | ⟨hmem', -⟩) hpath hyoung hyoung'
    · rfl
    · exact absurd hpath.symm (hne hmem' hyoung')
    · exact absurd hpath (hne hmem hyoung)
    · exact hu.unique hmem hmem' hpath hyoung hyoung'

theorem Backed.release (hu : s.Backed u) (hmem : h ∈ u.holds) (hmay : s.Considerate u h) :
    s.Backed ⟨s.release h.key u.tree, u.holds \ {h}⟩ := by
  have hsub : u.holds \ {h} ⊆ u.holds := Set.sdiff_subset
  -- No young lock is left that has the file which is removed.
  have hne {h' : Hold User} (hmem' : h' ∈ u.holds \ {h}) (hyoung' : s.IsYoung u.tree.now h') :
      s.lockPath h'.key ≠ s.lockPath h.key := by
    intro hpath
    rcases hmay with hyoung | hothers
    · exact hmem'.2 (hu.unique hmem'.1 hmem hpath hyoung' hyoung)
    · exact hothers h' hmem'.1 hpath hyoung'
  obtain hsame | ⟨l, content, modified, hstat, hdrop⟩ := release_cases s h.key u.tree
  · rw [hsame]
    exact ⟨fun hmem => hu.file (hsub hmem), fun hmem hmem' => hu.unique (hsub hmem) (hsub hmem')⟩
  · obtain ⟨hplace, hnode⟩ := stat_eq_ok.mp hstat
    rw [hdrop]
    refine ⟨fun hmem' hyoung' => ?_, fun hmem hmem' => hu.unique (hsub hmem) (hsub hmem')⟩
    exact hu.file_of_ne hplace (keepsDirectories_drop (by simp [hnode]))
      (fun l' hl' => node?_drop_of_ne hl' u.tree) (hsub hmem') hyoung' (hne hmem' hyoung')

/-- No step of considerate users takes the file of a young lock away. -/
theorem Step.backed (hstep : Step s mayRelease u u')
    (hmay : ∀ h ∈ u.holds, mayRelease u h → s.Considerate u h) (hu : s.Backed u) :
    s.Backed u' := by
  cases hstep with
  | wait seconds => exact hu.wait seconds
  | acquire user key granted =>
    have hattempt := attempt_lock s key u.tree
    generalize s.lock key u.tree = r at granted hattempt ⊢
    cases hattempt with
    | refused grows => exact Bool.noConfusion granted
    | taken grows place free =>
      have htaken := (hu.grows grows).taken place free user
      rwa [grows.now] at htaken ⊢
  | refuse key refused =>
    have hattempt := attempt_lock s key u.tree
    generalize s.lock key u.tree = r at refused hattempt ⊢
    cases hattempt with
    | refused grows => exact hu.grows grows
    | taken grows place free => exact Bool.noConfusion refused
  | release h hold may => exact hu.release hold (hmay h hold may)

theorem Reaches.backed {t : FileTree} (hreach : s.Reaches mayRelease t u)
    (hmay : ∀ u, s.Reaches mayRelease t u → s.Backed u →
      ∀ h ∈ u.holds, mayRelease u h → s.Considerate u h) : s.Backed u := by
  induction hreach with
  | refl => exact backed_empty s t
  | tail hreach hstep ih => exact hstep.backed (hmay _ hreach ih) ih

/-- A lock that one user was granted can be had by another one as soon as it is old. -/
theorem exists_reclaimed {t : FileTree} {key : String} {user user' : User} (hne : user ≠ user')
    (hgranted : (s.lock key t).1 = true) : ∃ u : Users User,
      (∀ mayRelease, s.Reaches mayRelease t u) ∧ u.tree.now = t.now + s.lockTimeout ∧
        ⟨user, key, t.now⟩ ∈ u.holds ∧ ⟨user', key, t.now + s.lockTimeout⟩ ∈ u.holds := by
  let later (t : FileTree) : FileTree := { t with now := t.now + s.lockTimeout }
  have hstale : s.isStale (s.lockPath key) (later (s.lock key t).2) = true := by
    obtain ⟨l, hstat⟩ := stat_lock hgranted
    refine isStale_eq_true.mpr ⟨l, .empty, t.now,
      (keepsDirectories_now _ _).stat hstat (stat_eq_ok.mp hstat).2, ?_⟩
    dsimp only [later]
    rw [now_lock]
    omega
  refine ⟨_, fun mayRelease => .tail (.tail (.single (.acquire ⟨t, ∅⟩ user key hgranted))
    (.wait _ s.lockTimeout)) (.acquire _ user' key (lock_of_isStale hstale)), ?_, ?_, ?_⟩
  · rw [now_lock]
    dsimp only
    rw [now_lock]
  · exact Set.mem_insert_of_mem _ ⟨Set.mem_insert _ _, fun hsame => hne hsame.1⟩
  · dsimp only
    rw [now_lock]
    exact Set.mem_insert _ _

/-! ### Exclusion -/

/-- When a user takes the file of a young lock away, another user can take that lock. -/
theorem Backed.exists_not_exclusive [Nontrivial User] (hu : s.Backed u) (hmem : h ∈ u.holds)
    (hmay : mayRelease u h) (hrude : ¬ s.Considerate u h) :
    ∃ u', Relation.ReflTransGen (s.Step mayRelease) u u' ∧ ¬ s.Exclusive u' := by
  unfold Considerate at hrude
  push Not at hrude
  obtain ⟨hold, h', hmem', hpath, hyoung⟩ := hrude
  obtain ⟨l, content, hstat⟩ := hu.file hmem' hyoung
  obtain ⟨user, huser⟩ := exists_ne h'.user
  have hdrop : s.release h.key u.tree = u.tree.drop l := release_of_stat (hpath ▸ hstat)
  have hrelease : s.Step mayRelease u ⟨u.tree.drop l, u.holds \ {h}⟩ :=
    hdrop ▸ Step.release u h hmem hmay
  have hnow : (s.lock h'.key (u.tree.drop l)).2.now = u.tree.now := now_lock s h'.key _
  have hstays : h' ∈ u.holds \ {h} := ⟨hmem', fun heq => hold (heq ▸ hyoung)⟩
  have hothers : ¬ (h'.user = user ∧ h'.key = h'.key) := fun hsame => huser hsame.1.symm
  have hnew : s.IsYoung u.tree.now ⟨user, h'.key, u.tree.now⟩ := by
    unfold IsYoung at hyoung ⊢
    dsimp only
    omega
  refine ⟨_, .tail (.single hrelease) (.acquire _ user h'.key (lock_drop hstat)), ?_⟩
  intro hexclusive
  refine huser (hexclusive ⟨user, h'.key, u.tree.now⟩ (Set.mem_insert _ _) h'
    (Set.mem_insert_of_mem _ ⟨hstays, hothers⟩) rfl ?_ ?_)
  · rwa [hnow]
  · rwa [hnow]

/-- The locks exclude each other in every run if and only if no user ever gives up an old lock
while one with the same file is young. -/
theorem exclusive_iff_considerate [Nontrivial User] (s : FileStorage)
    (mayRelease : Users User → Hold User → Prop) (t : FileTree) :
    (∀ u, s.Reaches mayRelease t u → s.Exclusive u) ↔
      ∀ u, s.Reaches mayRelease t u → ∀ h ∈ u.holds, mayRelease u h → s.Considerate u h := by
  constructor
  · intro hexclusive
    have hmay (u : Users User) (hreach : s.Reaches mayRelease t u) (hu : s.Backed u)
        (h : Hold User) (hmem : h ∈ u.holds) (hmay : mayRelease u h) : s.Considerate u h := by
      by_contra hrude
      obtain ⟨u', hrun, hnot⟩ := hu.exists_not_exclusive hmem hmay hrude
      exact hnot (hexclusive u' (hreach.trans hrun))
    exact fun u hreach => hmay u hreach (hreach.backed hmay)
  · intro hmay u hreach
    exact (hreach.backed fun u hreach _ => hmay u hreach).exclusive

private theorem granted_in_new_directory :
    ((⟨"/data", defaultLockTimeout⟩ : FileStorage).lock "k" (.ofDirectory ["data"] 0)).1 = true := by
  decide +kernel

/-- Considerate users come to hold a lock that was reclaimed, and exclude each other. -/
theorem exclusive_iff_considerate_reclaimed :
    Nontrivial (Fin 2) ∧ ∃ u : Users (Fin 2), Reaches ⟨"/data", 60⟩ (Considerate ⟨"/data", 60⟩)
        (.ofDirectory ["data"] 0) u ∧
      ⟨0, "k", 0⟩ ∈ u.holds ∧ ⟨1, "k", 60⟩ ∈ u.holds ∧ Exclusive ⟨"/data", 60⟩ u := by
  obtain ⟨u, hreach, _, hold, hyoung⟩ :=
    exists_reclaimed (by decide : (0 : Fin 2) ≠ 1) granted_in_new_directory
  have hexclusive : ∀ u : Users (Fin 2), Reaches ⟨"/data", 60⟩ (Considerate ⟨"/data", 60⟩)
      (.ofDirectory ["data"] 0) u → Exclusive ⟨"/data", 60⟩ u :=
    (exclusive_iff_considerate ⟨"/data", 60⟩ (Considerate ⟨"/data", 60⟩) _).mpr
      fun _ _ _ _ hmay => hmay
  exact ⟨inferInstance, u, hreach _, hold, hyoung, hexclusive u (hreach _)⟩

/-- It is not enough that users give up only locks that they hold: one whose lock was reclaimed
takes the file of the new holder away. -/
theorem not_exclusive_of_holding : ¬ ∀ (s : FileStorage) (t : FileTree) (u : Users (Fin 2)),
    s.Reaches (fun _ _ => True) t u → s.Exclusive u := by
  intro hexclusive
  obtain ⟨u, hreach, hnow, hold, hyoung⟩ :=
    exists_reclaimed (by decide : (0 : Fin 2) ≠ 1) granted_in_new_directory
  have hbacked : Backed ⟨"/data", defaultLockTimeout⟩ u :=
    (hreach fun _ _ => False).backed fun _ _ _ _ _ => False.elim
  have hrude : ¬ Considerate ⟨"/data", defaultLockTimeout⟩ u ⟨0, "k", 0⟩ := by
    rintro (h | h)
    · rw [hnow] at h
      exact absurd h (by decide)
    · refine h _ hyoung rfl ?_
      rw [hnow]
      decide
  have hmay : ∃ u', Relation.ReflTransGen (Step _ fun _ _ => True) u u' ∧ ¬ Exclusive _ u' :=
    hbacked.exists_not_exclusive hold trivial hrude
  obtain ⟨u', hrun, hnot⟩ := hmay
  exact hnot (hexclusive _ _ u' ((hreach _).trans hrun))

end PhpLint.FileStorage
