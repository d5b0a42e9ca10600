import Mathlib
import PhpLint.Files.Tree
import PhpLint.Proofs.Dict
import PhpLint.Proofs.Except
import PhpLint.Proofs.Files.Parent

/-!
Places in a tree. Where a path leads depends on the tree only in so far as it can be followed, so
that what is done at one place leaves the others as they are.
-/
namespace PhpLint.FileTree

variable {t t' t'' : FileTree} {l l' : Location} {path base name : String} {node : Node}

/-! ### Where a path leads -/

/-- The place to which names lead, provided that they can be followed. -/
def place (l : Location) : List String → Location
  | [] => l
  | name :: names =>
    if Path.isIdle name then place l names
    else if name == ".." then place l.dropLast names
    else place (l ++ [name]) names

theorem place_append (l : Location) (names names' : List String) :
    place l (names ++ names') = place (place l names) names' := by
  induction names generalizing l with
  | nil => rfl
  | cons name names ih =>
    rw [List.cons_append, place, place]
    split_ifs <;> exact ih _

theorem place_of_follow {names : List String} (h : t.follow l names = .ok l') :
    place l names = l' := by
  induction names generalizing l with
  | nil => exact Except.ok.inj h
  | cons name names ih =>
    rw [follow] at h
    rw [place]
    split at h
    · contradiction
    · contradiction
    · split_ifs at h ⊢
      · exact ih h
      · exact ih h
      · exact ih h

theorem place_name (h : Path.IsName name) (l : Location) : place l [name] = l ++ [name] := by
  rw [place, if_neg h.2.1, if_neg (by simpa using h.2.2), place]

/-- The place of a path in every tree with the same working directory. -/
def placeOf (workingDirectory : Location) (path : String) : Location :=
  place (if Path.isAbsolute path then [] else workingDirectory) (Path.pieces path)

theorem place_idle {idle : List String} (h : ∀ piece ∈ idle, Path.isIdle piece) (l : Location) :
    place l idle = l := by
  induction idle with
  | nil => rfl
  | cons piece idle ih =>
    rw [place, if_pos (h piece List.mem_cons_self)]
    exact ih fun piece' hpiece' => h piece' (List.mem_cons_of_mem piece hpiece')

/-- A name that is put behind a path is the last one on the way. -/
theorem placeOf_extends (h : Path.Extends path base name) (workingDirectory : Location) :
    placeOf workingDirectory path = placeOf workingDirectory base ++ [name] := by
  obtain ⟨front, idle, idle', hpath, hbase, hidle, hidle'⟩ := h.pieces_eq
  unfold placeOf
  rw [h.isAbsolute_eq, hpath, hbase, place_append, place_append, place_append, place_idle hidle,
    place_idle hidle', place_name h.isName]

theorem locate_eq_ok : t.locate path = .ok l ↔ checkPath path = .ok () ∧
    t.follow (if Path.isAbsolute path then [] else t.workingDirectory) (Path.pieces path) =
      .ok l := by
  unfold locate
  rw [except_bind_eq_ok]
  exact ⟨fun ⟨_, hcheck, hfollow⟩ => ⟨hcheck, hfollow⟩, fun h => ⟨(), h⟩⟩

theorem placeOf_of_locate (h : t.locate path = .ok l) :
    placeOf t.workingDirectory path = l :=
  place_of_follow (locate_eq_ok.mp h).2

theorem stat_eq_ok : t.stat path = .ok (l, node) ↔
    t.locate path = .ok l ∧ t.node? l = some node := by
  unfold stat
  rw [except_bind_eq_ok]
  constructor
  · rintro ⟨l', hlocate, h⟩
    split at h
    · rename_i hnode
      obtain ⟨rfl, rfl⟩ := Prod.mk.inj (Except.ok.inj h)
      exact ⟨hlocate, hnode⟩
    · contradiction
  · rintro ⟨hlocate, hnode⟩
    exact ⟨l, hlocate, by rw [hnode]⟩

/-! ### Names behind a path -/

theorem follow_append (t : FileTree) (l : Location) (names names' : List String) :
    t.follow l (names ++ names') = t.follow l names >>= (t.follow · names') := by
  induction names generalizing l with
  | nil => rfl
  | cons name names ih =>
    rw [List.cons_append, follow, follow]
    split
    · rfl
    · rfl
    · split_ifs
      · exact ih l
      · exact ih l.dropLast
      · rfl
      · exact ih (l ++ [name])

theorem follow_name (h : Path.IsName name) : t.follow l [name] = .ok l' ↔
    t.node? l = some .directory ∧ name.utf8ByteSize ≤ longestName ∧ l' = l ++ [name] := by
  rw [follow]
  split
  · rename_i hnode
    simp [hnode]
  · rename_i hnode
    simp [hnode]
  · rename_i hnode
    rw [if_neg h.2.1, if_neg (by simpa using h.2.2)]
    split_ifs with hlong
    · simp [hlong]
    · simp [hnode, follow, not_lt.mp hlong, eq_comm]

theorem checkPath_eq_ok : checkPath path = .ok () ↔
    '\x00' ∉ path.toList ∧ path ≠ "" ∧ isShort path := by
  unfold checkPath
  split_ifs <;> simp_all

theorem ne_empty_of_checkPath (h : checkPath path = .ok ()) : path ≠ "" :=
  (checkPath_eq_ok.mp h).2.1

theorem checkPath_of_stat (h : t.stat path = .ok (l, node)) : checkPath path = .ok () :=
  (locate_eq_ok.mp (stat_eq_ok.mp h).1).1

theorem checkPath_of_append {rest : String} (hne : base ≠ "")
    (hcheck : checkPath (base ++ rest) = .ok ()) : checkPath base = .ok () := by
  rw [checkPath_eq_ok] at hcheck
  obtain ⟨hnul, _, hshort⟩ := hcheck
  refine checkPath_eq_ok.mpr ⟨fun hmem => hnul (by simp [hmem]), hne, ?_⟩
  unfold isShort at hshort ⊢
  rw [decide_eq_true_eq, String.utf8ByteSize_append] at hshort
  exact decide_eq_true (le_trans (Nat.le_add_right _ _) hshort)

/-- Nothing is wrong with a path that a name can be put behind. -/
theorem checkPath_of_extends (h : Path.Extends path base name) (hne : base ≠ "")
    (hcheck : checkPath path = .ok ()) : checkPath base = .ok () := by
  obtain ⟨rest, rfl⟩ := h.begins
  exact checkPath_of_append hne hcheck

/-- What means nothing in front of a name does not count. -/
theorem follow_idle_append {idle : List String} (h : ∀ piece ∈ idle, Path.isIdle piece)
    (t : FileTree) (l : Location) (name : String) :
    t.follow l (idle ++ [name]) = t.follow l [name] := by
  induction idle with
  | nil => rfl
  | cons piece idle ih =>
    have hrest := ih fun piece' hpiece' => h piece' (List.mem_cons_of_mem piece hpiece')
    rw [List.cons_append, follow, if_pos (h piece List.mem_cons_self), hrest, follow]
    cases t.node? l with
    | none => rfl
    | some node => cases node <;> rfl

/-- What means nothing behind a path is followed in a directory only, as a name is. -/
theorem follow_idle_bind {idle : List String} (h : ∀ piece ∈ idle, Path.isIdle piece)
    (t : FileTree) (l : Location) (name : String) :
    (t.follow l idle >>= fun l' => t.follow l' [name]) = t.follow l [name] := by
  rw [← follow_append, follow_idle_append h]

/-- What is behind a path is looked for in what the path leads to. -/
theorem locate_extends_eq (h : Path.Extends path base name) (hne : base ≠ "")
    (hcheck : checkPath path = .ok ()) :
    t.locate path = t.stat base >>= fun found => t.follow found.1 [name] := by
  obtain ⟨front, idle, idle', hpath, hbase, hidle, hidle'⟩ := h.pieces_eq
  have hcheck' := checkPath_of_extends h hne hcheck
  unfold stat locate
  rw [hcheck, hcheck', h.isAbsolute_eq, hpath, List.append_assoc, follow_append, hbase]
  change _ = (t.follow _ (front ++ idle') >>= _) >>= _
  rw [follow_append]
  cases t.follow (if Path.isAbsolute base then [] else t.workingDirectory) front with
  | error e => rfl
  | ok l =>
    change t.follow l (idle ++ [name]) = (t.follow l idle' >>= _) >>= _
    rw [follow_idle_append hidle, ← follow_idle_bind hidle' t l name]
    cases t.follow l idle' with
    | error e => rfl
    | ok l' => cases hnode : t.node? l' <;> simp [bind, Except.bind, follow, hnode]

/-- A name is found behind a path where the path leads to a directory. -/
theorem locate_extends (h : Path.Extends path base name) (hne : base ≠ "") :
    t.locate path = .ok l ↔ checkPath path = .ok () ∧ name.utf8ByteSize ≤ longestName ∧
      ∃ l₀, t.stat base = .ok (l₀, .directory) ∧ l = l₀ ++ [name] := by
  constructor
  · intro hlocate
    have hcheck := (locate_eq_ok.mp hlocate).1
    rw [locate_extends_eq h hne hcheck, except_bind_eq_ok] at hlocate
    obtain ⟨⟨l₀, node⟩, hstat, hfollow⟩ := hlocate
    obtain ⟨hnode, hshort, hl⟩ := (follow_name h.isName).mp hfollow
    rw [(stat_eq_ok.mp hstat).2] at hnode
    exact ⟨hcheck, hshort, l₀, Option.some.inj hnode ▸ hstat, hl⟩
  · rintro ⟨hcheck, hshort, l₀, hstat, hl⟩
    rw [locate_extends_eq h hne hcheck, hstat]
    exact (follow_name h.isName).mpr ⟨(stat_eq_ok.mp hstat).2, hshort, hl⟩

theorem stat_extends (h : Path.Extends path base name) (hcheck : checkPath path = .ok ())
    (hshort : name.utf8ByteSize ≤ longestName) (hbase : t.stat base = .ok (l, .directory)) :
    t.stat path = match t.node? (l ++ [name]) with
      | some node => .ok (l ++ [name], node)
      | none => .error .notFound := by
  have hne := ne_empty_of_checkPath (checkPath_of_stat hbase)
  unfold stat
  rw [(locate_extends h hne).mpr ⟨hcheck, hshort, l, hbase, rfl⟩]
  rfl

theorem locate_extends_of_notFound (h : Path.Extends path base name) (hne : base ≠ "")
    (hcheck : checkPath path = .ok ()) (hbase : t.stat base = .error .notFound) :
    t.locate path = .error .notFound := by
  rw [locate_extends_eq h hne hcheck, hbase]
  rfl

theorem stat_extends_of_notFound (h : Path.Extends path base name) (hne : base ≠ "")
    (hcheck : checkPath path = .ok ()) (hbase : t.stat base = .error .notFound) :
    t.stat path = .error .notFound := by
  unfold stat
  rw [locate_extends_of_notFound h hne hcheck hbase]
  rfl

/-- Where a directory or nothing can be, one of them is found. -/
theorem stat_extends_directory (h : Path.Extends path base name)
    (hne : base ≠ "") (hcheck : checkPath path = .ok ())
    (hshort : name.utf8ByteSize ≤ longestName)
    (hbase : t.stat base = .ok (l, .directory) ∨ t.stat base = .error .notFound)
    (hfile : ∀ content modified, t.node? (l ++ [name]) ≠ some (.file content modified)) :
    t.stat path = .ok (l ++ [name], .directory) ∨ t.stat path = .error .notFound := by
  rcases hbase with hbase | hbase
  · have hstat := stat_extends h hcheck hshort hbase
    rcases hnode : t.node? (l ++ [name]) with _ | _ | ⟨content, modified⟩
    · exact Or.inr (by rw [hstat, hnode])
    · exact Or.inl (by rw [hstat, hnode])
    · exact absurd hnode (hfile content modified)
  · exact Or.inr (stat_extends_of_notFound h hne hcheck hbase)

/-- What means nothing leads from a directory to itself. -/
theorem follow_idle {idle : List String} (h : ∀ piece ∈ idle, Path.isIdle piece)
    (hnode : t.node? l = some .directory) : t.follow l idle = .ok l := by
  induction idle with
  | nil => rfl
  | cons piece idle ih =>
    rw [follow, hnode]
    dsimp only
    rw [if_pos (h piece List.mem_cons_self)]
    exact ih fun piece' hpiece' => h piece' (List.mem_cons_of_mem piece hpiece')

/-- A directory is found however its path ends. -/
theorem stat_of_sameName (h : Path.SameName path base) (hcheck : checkPath base = .ok ())
    (hstat : t.stat path = .ok (l, .directory)) : t.stat base = .ok (l, .directory) := by
  obtain ⟨front, idle, idle', hpath, hbase, hidle, hidle'⟩ := h.pieces_eq
  obtain ⟨hlocate, hnode⟩ := stat_eq_ok.mp hstat
  obtain ⟨_, hfollow⟩ := locate_eq_ok.mp hlocate
  rw [hpath, follow_append, except_bind_eq_ok] at hfollow
  obtain ⟨l', hfront, hrest⟩ := hfollow
  have hsame : l' = l := by
    rw [← place_of_follow hrest, place_idle hidle]
  refine stat_eq_ok.mpr ⟨locate_eq_ok.mpr ⟨hcheck, ?_⟩, hnode⟩
  rw [h.isAbsolute_eq, hbase, follow_append, hfront, hsame]
  exact follow_idle hidle' hnode

/-! ### What is where -/

theorem node?_of_ne_nil (h : l ≠ []) (t : FileTree) : t.node? l = t.nodes.lookup l := by
  rw [node?, if_neg (by simpa using h)]

theorem ne_nil_of_node? (h : t.node? l ≠ some .directory) : l ≠ [] := by
  rintro rfl
  exact h rfl

theorem node?_put_self (h : l ≠ []) (t : FileTree) (node : Node) :
    (t.put l node).node? l = some node := by
  rw [node?_of_ne_nil h]
  exact List.lookup_cons_self

theorem node?_put_of_ne (h : l' ≠ l) (t : FileTree) (node : Node) :
    (t.put l node).node? l' = t.node? l' := by
  unfold node? put
  rw [List.lookup_cons, beq_eq_false_iff_ne.mpr h, lookup_filter_of_ne h]

theorem node?_drop_self (h : l ≠ []) (t : FileTree) : (t.drop l).node? l = none := by
  rw [node?_of_ne_nil h, List.lookup_eq_none_iff]
  intro entry hentry
  exact bne_iff_ne.mpr (bne_iff_ne.mp (List.mem_filter.mp hentry).2).symm

theorem node?_drop_of_ne (h : l' ≠ l) (t : FileTree) : (t.drop l).node? l' = t.node? l' := by
  unfold node? drop
  rw [lookup_filter_of_ne h]

/-- What is put at a place takes the place of what was there. -/
theorem put_drop (t : FileTree) (l : Location) (node : Node) :
    (t.drop l).put l node = t.put l node := by
  unfold put drop
  rw [List.filter_filter]
  simp only [Bool.and_self]

@[simp] theorem workingDirectory_put (t : FileTree) (l : Location) (node : Node) :
    (t.put l node).workingDirectory = t.workingDirectory :=
  rfl

/-! ### Trees that keep their directories -/

/-- Every directory of one tree is one of the other. -/
structure KeepsDirectories (t t' : FileTree) : Prop where
  workingDirectory : t'.workingDirectory = t.workingDirectory
  node?_directory : ∀ {l}, t.node? l = some .directory → t'.node? l = some .directory

/-- What can be followed can still be followed. -/
theorem KeepsDirectories.follow (h : t.KeepsDirectories t') {names : List String}
    (hfollow : t.follow l names = .ok l') : t'.follow l names = .ok l' := by
  induction names generalizing l with
  | nil => exact hfollow
  | cons name names ih =>
    rw [FileTree.follow] at hfollow ⊢
    split at hfollow
    · contradiction
    · contradiction
    · rename_i hnode
      rw [h.node?_directory hnode]
      dsimp only
      split_ifs at hfollow ⊢
      · exact ih hfollow
      · exact ih hfollow
      · exact ih hfollow

theorem KeepsDirectories.locate (h : t.KeepsDirectories t') (hlocate : t.locate path = .ok l) :
    t'.locate path = .ok l := by
  rw [locate_eq_ok] at hlocate ⊢
  rw [h.workingDirectory]
  exact hlocate.imp_right h.follow

/-- What a path leads to is found as long as it is there. -/
theorem KeepsDirectories.stat (h : t.KeepsDirectories t') (hstat : t.stat path = .ok (l, node))
    (hnode : t'.node? l = some node) : t'.stat path = .ok (l, node) :=
  stat_eq_ok.mpr ⟨h.locate (stat_eq_ok.mp hstat).1, hnode⟩

theorem keepsDirectories_now (t : FileTree) (now : Nat) :
    t.KeepsDirectories { t with now := now } :=
  ⟨rfl, id⟩

theorem keepsDirectories_put (h : t.node? l ≠ some .directory) (node : Node) :
    t.KeepsDirectories (t.put l node) where
  workingDirectory := rfl
  node?_directory := by
    intro l' hl'
    rw [node?_put_of_ne (by rintro rfl; exact h hl')]
    exact hl'

theorem keepsDirectories_drop (h : t.node? l ≠ some .directory) :
    t.KeepsDirectories (t.drop l) where
  workingDirectory := rfl
  node?_directory := by
    intro l' hl'
    rw [node?_drop_of_ne (by rintro rfl; exact h hl')]
    exact hl'

/-! ### Trees that grow -/

/-- A tree with more directories, and otherwise the same one. -/
structure Grows (t t' : FileTree) : Prop where
  workingDirectory : t'.workingDirectory = t.workingDirectory
  now : t'.now = t.now
  node? : ∀ {l node}, t.node? l = some node → t'.node? l = some node
  file : ∀ {l content modified}, t'.node? l = some (.file content modified) →
    t.node? l = some (.file content modified)

theorem Grows.keepsDirectories (h : t.Grows t') : t.KeepsDirectories t' :=
  ⟨h.workingDirectory, h.node?⟩

theorem Grows.stat (h : t.Grows t') (hstat : t.stat path = .ok (l, node)) :
    t'.stat path = .ok (l, node) :=
  h.keepsDirectories.stat hstat (h.node? (stat_eq_ok.mp hstat).2)

theorem Grows.refl (t : FileTree) : t.Grows t :=
  ⟨rfl, rfl, id, id⟩

theorem Grows.trans (h : t.Grows t') (h' : t'.Grows t'') : t.Grows t'' where
  workingDirectory := h'.workingDirectory.trans h.workingDirectory
  now := h'.now.trans h.now
  node? hnode := h'.node? (h.node? hnode)
  file hfile := h.file (h'.file hfile)

theorem grows_put_directory (h : t.node? l = none) : t.Grows (t.put l .directory) where
  workingDirectory := rfl
  now := rfl
  node? := by
    intro l' node hnode
    rw [node?_put_of_ne (by rintro rfl; rw [h] at hnode; contradiction)]
    exact hnode
  file := by
    intro l' content modified hfile
    have hnode : t.node? l ≠ some .directory := by simp [h]
    by_cases heq : l' = l
    · subst heq
      rw [node?_put_self (ne_nil_of_node? hnode)] at hfile
      exact Node.noConfusion (Option.some.inj hfile)
    · rwa [node?_put_of_ne heq] at hfile

/-! ### Files -/

theorem create_eq_ok : t.create path = .ok t' ↔
    ∃ l, t.locate path = .ok l ∧ t.node? l = none ∧ t' = t.put l (.file .empty t.now) := by
  unfold create
  rw [except_bind_eq_ok]
  refine exists_congr fun l => and_congr_right fun _ => ?_
  split
  · rename_i hnode
    simp [hnode]
  · rename_i hnode
    simp [hnode, eq_comm]

theorem create_of_stat (h : t.stat path = .ok (l, node)) :
    t.create path = .error .alreadyExists := by
  obtain ⟨hlocate, hnode⟩ := stat_eq_ok.mp h
  unfold create
  rw [hlocate]
  simp only [bind, Except.bind]
  rw [hnode]

theorem remove_eq_ok : t.remove path = .ok t' ↔
    ∃ l content modified, t.stat path = .ok (l, .file content modified) ∧ t' = t.drop l := by
  unfold remove
  rw [except_bind_eq_ok]
  constructor
  · rintro ⟨⟨l, node⟩, hstat, h⟩
    cases node with
    | directory => contradiction
    | file content modified => exact ⟨l, content, modified, hstat, (Except.ok.inj h).symm⟩
  · rintro ⟨l, content, modified, hstat, rfl⟩
    exact ⟨_, hstat, rfl⟩

theorem read_eq_ok {data : ByteArray} : t.read path = .ok data ↔
    ∃ l modified, t.stat path = .ok (l, .file data modified) := by
  unfold read
  rw [except_bind_eq_ok]
  constructor
  · rintro ⟨⟨l, node⟩, hstat, h⟩
    cases node with
    | directory => contradiction
    | file content modified =>
      rw [← Except.ok.inj h]
      exact ⟨l, modified, hstat⟩
  · rintro ⟨l, modified, hstat⟩
    exact ⟨_, hstat, rfl⟩

theorem read_of_stat {e : DiskError} (h : t.stat path = .error e) : t.read path = .error e := by
  unfold read
  rw [h]
  rfl

theorem write_eq_ok {data : ByteArray} : t.write path data = .ok t' ↔
    ∃ l, t.locate path = .ok l ∧ t.node? l ≠ some .directory ∧
      t' = t.put l (.file data t.now) := by
  unfold write
  rw [except_bind_eq_ok]
  refine exists_congr fun l => and_congr_right fun _ => ?_
  split
  · rename_i hnode
    simp [hnode]
  · rename_i hnode
    constructor
    · exact fun h => ⟨hnode, (Except.ok.inj h).symm⟩
    · rintro ⟨_, rfl⟩
      rfl

end PhpLint.FileTree
