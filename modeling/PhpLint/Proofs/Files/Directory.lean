import PhpLint.Proofs.Files.Tree

/-! Directories that are made: nothing else changes, and those that can be made are there then. -/
namespace PhpLint.FileTree

variable {t t' : FileTree} {l : Location} {path base name : String}

theorem grows_makeDirectory (h : t.makeDirectory path = .ok t') : t.Grows t' := by
  unfold makeDirectory at h
  obtain ⟨_, _, h⟩ := except_bind_eq_ok.mp h
  obtain ⟨l, _, h⟩ := except_bind_eq_ok.mp h
  split at h
  · contradiction
  · rename_i hnode
    rw [← Except.ok.inj h]
    exact grows_put_directory hnode

theorem grows_ensureDirectory (t : FileTree) (path : String) :
    t.Grows (t.ensureDirectory path).2 := by
  unfold ensureDirectory
  split
  · rename_i t' h
    exact grows_makeDirectory h
  · split_ifs <;> exact Grows.refl t

theorem grows_ensureFirst (paths : List String) (t : FileTree) :
    t.Grows (ensureFirst paths t).2 := by
  induction paths generalizing t with
  | nil => exact Grows.refl t
  | cons path parents ih =>
    have hfirst := grows_ensureDirectory t path
    rw [ensureFirst]
    split_ifs
    · exact Grows.refl t
    split
    · rename_i t₁ h₁
      rw [h₁] at hfirst
      have hparents := hfirst.trans (ih t₁)
      split
      · rename_i t₂ h₂
        rw [h₂] at hparents
        exact hparents.trans (grows_ensureDirectory t₂ path)
      · exact hparents
    · exact hfirst

/-- Making directories changes nothing else. -/
theorem grows_ensureDirectories (t : FileTree) (path : String) :
    t.Grows (t.ensureDirectories path).2 :=
  grows_ensureFirst (Path.ancestors path) t

/-! ### Directories that are there -/

theorem pieces_slashes (n : ℕ) :
    Path.pieces (String.ofList (List.replicate n '/')) = List.replicate (n + 1) "" := by
  induction n with
  | zero => decide
  | succ n ih =>
    have htext : String.ofList (List.replicate (n + 1) '/') =
        "" ++ "/" ++ String.ofList (List.replicate n '/') := by
      rw [← String.toList_inj, List.replicate_succ]
      simp
    have hempty : Path.pieces "" = [""] := by decide
    rw [htext, Path.pieces_append_slash, ih, hempty]
    rfl

theorem trimSeparators_ne_empty (h : path ≠ "") : trimSeparators path ≠ "" := by
  unfold trimSeparators
  dsimp only
  split_ifs with hempty
  · exact h
  · simpa [← String.toList_inj] using hempty

/-- Separators behind a path mean nothing. -/
theorem sameName_trimSeparators (path : String) : Path.SameName path (trimSeparators path) ∧
    ∃ rest, path = trimSeparators path ++ rest := by
  unfold trimSeparators
  dsimp only
  split_ifs with hempty
  · exact ⟨⟨rfl, Path.pieces path, [], [], (List.append_nil _).symm, (List.append_nil _).symm,
      nofun, nofun⟩, "", String.append_empty.symm⟩
  generalize hs : (path.toList.reverse.dropWhile (· == '/')).reverse = s at hempty ⊢
  obtain ⟨n, hn⟩ : ∃ n, path = String.ofList s ++ String.ofList (List.replicate n '/') := by
    refine ⟨(path.toList.reverse.takeWhile (· == '/')).length, ?_⟩
    have hslashes : (path.toList.reverse.takeWhile (· == '/')).reverse =
        List.replicate (path.toList.reverse.takeWhile (· == '/')).length '/' := by
      rw [List.eq_replicate_iff, List.length_reverse]
      refine ⟨rfl, fun c hc => ?_⟩
      rw [List.mem_reverse] at hc
      exact eq_of_beq (List.mem_takeWhile_imp (p := (· == '/')) hc)
    rw [← String.toList_inj, String.toList_append, String.toList_ofList, String.toList_ofList,
      ← hslashes, ← hs, ← List.reverse_append, List.takeWhile_append_dropWhile,
      List.reverse_reverse]
  have hne : String.ofList s ≠ "" := by simpa [← String.toList_inj] using hempty
  refine ⟨⟨?_, ?_⟩, _, hn⟩
  · rw [hn, Path.isAbsolute_append hne]
  · cases n with
    | zero =>
      refine ⟨Path.pieces path, [], [], (List.append_nil _).symm, ?_, nofun, nofun⟩
      rw [hn, List.replicate_zero, List.append_nil]
      exact congrArg Path.pieces String.append_empty.symm
    | succ n =>
      have htext : path = String.ofList s ++ "/" ++ String.ofList (List.replicate n '/') := by
        rw [hn, ← String.toList_inj, List.replicate_succ]
        simp
      refine ⟨Path.pieces (String.ofList s), List.replicate (n + 1) "", [], ?_,
        (List.append_nil _).symm, fun piece hpiece => ?_, nofun⟩
      · rw [htext, Path.pieces_append_slash, pieces_slashes]
      · rw [List.eq_of_mem_replicate hpiece]
        rfl

/-- A directory that is there need not be made. -/
theorem ensureDirectory_of_stat (hstat : t.stat path = .ok (l, .directory)) :
    t.ensureDirectory path = (.ok (), t) := by
  have hcheck := checkPath_of_stat hstat
  obtain ⟨hsame, rest, hrest⟩ := sameName_trimSeparators path
  have hne := trimSeparators_ne_empty (ne_empty_of_checkPath hcheck)
  have htrim := stat_of_sameName hsame (checkPath_of_append hne (hrest ▸ hcheck)) hstat
  obtain ⟨hlocate, hnode⟩ := stat_eq_ok.mp htrim
  have hmake : t.makeDirectory path = .error .alreadyExists := by
    unfold makeDirectory
    rw [hcheck, hlocate]
    simp only [bind, Except.bind]
    rw [hnode]
  unfold ensureDirectory
  rw [hmake]
  dsimp only
  rw [isDirectory, hstat, if_pos rfl]

theorem ensureDirectories_of_stat (hstat : t.stat path = .ok (l, .directory)) :
    t.ensureDirectories path = (.ok (), t) := by
  have hne := ne_empty_of_checkPath (checkPath_of_stat hstat)
  unfold ensureDirectories Path.ancestors Path.ancestors.go
  rw [ensureFirst, if_neg (by simpa using hne), ensureDirectory_of_stat hstat]

/-- A tree of nothing but a directory has nothing below it. -/
theorem node?_ofDirectory_append (directory : Location) (now : ℕ) {names : List String}
    (h : names ≠ []) : (ofDirectory directory now).node? (directory ++ names) = none := by
  rw [node?_of_ne_nil (List.append_ne_nil_of_right_ne_nil directory h), List.lookup_eq_none_iff]
  intro entry hentry
  obtain ⟨i, _, rfl⟩ := List.mem_map.mp hentry
  rw [bne_iff_ne]
  intro heq
  have hlength := congrArg List.length heq
  have hnames := List.length_pos_iff.mpr h
  rw [List.length_append, List.length_take] at hlength
  omega

/-! ### Directories behind a path -/

theorem trimSeparators_extends (h : Path.Extends path base name) : trimSeparators path = path := by
  have hlast : ∀ c ∈ path.toList.reverse.head?, (c == '/') = false := by
    intro c hc
    rw [List.head?_reverse] at hc
    rw [beq_eq_false_iff_ne]
    rintro rfl
    exact h.getLast?_ne hc
  unfold trimSeparators
  dsimp only
  rw [Text.dropWhile_of_head? hlast, List.reverse_reverse, String.ofList_toList, ite_self]

theorem makeDirectory_extends (h : Path.Extends path base name) (hcheck : checkPath path = .ok ()) :
    t.makeDirectory path = t.locate path >>= fun l =>
      match t.node? l with
      | some _ => .error .alreadyExists
      | none => .ok (t.put l .directory) := by
  unfold makeDirectory
  rw [hcheck, trimSeparators_extends h]
  rfl

/-- A directory is made in another one where nothing else is in its place. -/
theorem ensureDirectory_extends (h : Path.Extends path base name)
    (hcheck : checkPath path = .ok ()) (hshort : name.utf8ByteSize ≤ longestName)
    (hbase : t.stat base = .ok (l, .directory))
    (hfree : ∀ content modified, t.node? (l ++ [name]) ≠ some (.file content modified)) :
    ∃ t', t.ensureDirectory path = (.ok (), t') ∧
      t'.stat path = .ok (l ++ [name], .directory) ∧
      ∀ l', l' ≠ l ++ [name] → t'.node? l' = t.node? l' := by
  have hne := ne_empty_of_checkPath (checkPath_of_stat hbase)
  have hlocate := (locate_extends h hne).mpr ⟨hcheck, hshort, l, hbase, rfl⟩
  cases hnode : t.node? (l ++ [name]) with
  | none =>
    have hmake : t.makeDirectory path = .ok (t.put (l ++ [name]) .directory) := by
      rw [makeDirectory_extends h hcheck, hlocate]
      simp only [bind, Except.bind]
      rw [hnode]
    have hkeeps : t.KeepsDirectories (t.put (l ++ [name]) .directory) :=
      (grows_put_directory hnode).keepsDirectories
    refine ⟨t.put (l ++ [name]) .directory, ?_, ?_, fun l' hl' => node?_put_of_ne hl' t _⟩
    · unfold ensureDirectory
      rw [hmake]
    · exact stat_eq_ok.mpr ⟨hkeeps.locate hlocate,
        node?_put_self (List.concat_ne_nil _ _) t .directory⟩
  | some node =>
    cases node with
    | file content modified => exact absurd hnode (hfree content modified)
    | directory =>
      have hstat := stat_eq_ok.mpr ⟨hlocate, hnode⟩
      exact ⟨t, ensureDirectory_of_stat hstat, hstat, fun _ _ => rfl⟩

/-- In a directory that is not there none can be made. -/
theorem ensureDirectory_of_notFound (h : Path.Extends path base name) (hne : base ≠ "")
    (hcheck : checkPath path = .ok ()) (hbase : t.stat base = .error .notFound) :
    t.ensureDirectory path = (.error .notFound, t) := by
  unfold ensureDirectory
  rw [makeDirectory_extends h hcheck, locate_extends_of_notFound h hne hcheck hbase]
  simp only [bind, Except.bind]
  rw [isDirectory, stat_extends_of_notFound h hne hcheck hbase, if_neg Bool.false_ne_true]

/-! ### Directories in one another -/

variable {names rest : List String}

/-- Where no file is on the way, a path leads to a directory or to nothing. -/
theorem stat_descends (h : Path.Descends base names path rest) (hcheck : checkPath path = .ok ())
    (hshort : ∀ name ∈ names, name.utf8ByteSize ≤ longestName)
    (hbase : t.stat base = .ok (l, .directory))
    (hfree : ∀ ns, ns <+: names → ∀ content modified,
      t.node? (l ++ ns) ≠ some (.file content modified)) :
    t.stat path = .ok (l ++ names, .directory) ∨ t.stat path = .error .notFound := by
  induction h with
  | one h =>
    exact stat_extends_directory h (ne_empty_of_checkPath (checkPath_of_stat hbase)) hcheck
      (hshort _ List.mem_cons_self) (Or.inl hbase) (hfree _ List.prefix_rfl)
  | @more path parent name names rest h hparent ih =>
    have hfound := ih (checkPath_of_extends h hparent.ne_empty hcheck)
      (fun name' hname' => hshort name' (List.mem_append_left _ hname'))
      fun ns hns => hfree ns (hns.trans (List.prefix_append names [name]))
    rw [← List.append_assoc]
    refine stat_extends_directory h hparent.ne_empty hcheck
      (hshort _ (List.mem_append_right _ List.mem_cons_self)) hfound ?_
    rw [List.append_assoc]
    exact hfree _ List.prefix_rfl

/-- A directory is made with those around it, below one that is there. Nothing else changes. -/
theorem ensureFirst_descends (h : Path.Descends base names path rest)
    (hcheck : checkPath path = .ok ())
    (hshort : ∀ name ∈ names, name.utf8ByteSize ≤ longestName)
    (hbase : t.stat base = .ok (l, .directory))
    (hfree : ∀ ns, ns <+: names → ∀ content modified,
      t.node? (l ++ ns) ≠ some (.file content modified)) :
    ∃ t', ensureFirst (path :: rest) t = (.ok (), t') ∧
      t'.stat path = .ok (l ++ names, .directory) ∧
      ∀ l', (∀ ns, ns ≠ [] → ns <+: names → l' ≠ l ++ ns) → t'.node? l' = t.node? l' := by
  induction h with
  | @one path name h rest =>
    obtain ⟨t', hensure, hstat, hothers⟩ := ensureDirectory_extends h hcheck
      (hshort _ List.mem_cons_self) hbase (hfree _ List.prefix_rfl)
    refine ⟨t', ?_, hstat, fun l' hl' => hothers l' (hl' _ (List.cons_ne_nil _ _) List.prefix_rfl)⟩
    rw [ensureFirst, if_neg (by simpa using h.ne_empty), hensure]
  | @more path parent name names rest h hparent ih =>
    have hcheck' := checkPath_of_extends h hparent.ne_empty hcheck
    have hshort' (name' : String) (hname' : name' ∈ names) :=
      hshort name' (List.mem_append_left _ hname')
    have hfree' (ns : List String) (hns : ns <+: names) :=
      hfree ns (hns.trans (List.prefix_append names [name]))
    have hlast := hshort name (List.mem_append_right _ List.mem_cons_self)
    -- the outer directory is there, or it is made when the inner one cannot be
    have hinner {t₁ : FileTree} (hstat₁ : t₁.stat parent = .ok (l ++ names, .directory))
        (hsame : t₁.node? (l ++ names ++ [name]) = t.node? (l ++ names ++ [name])) :=
      ensureDirectory_extends h hcheck hlast hstat₁
        (by rw [hsame, List.append_assoc]; exact hfree _ List.prefix_rfl)
    rw [ensureFirst, if_neg (by simpa using h.ne_empty), ← List.append_assoc]
    rcases stat_descends hparent hcheck' hshort' hbase hfree' with hstat | hstat
    · obtain ⟨t', hensure, hstat', hothers⟩ := hinner hstat rfl
      refine ⟨t', by rw [hensure], hstat', fun l' hl' => hothers l' ?_⟩
      rw [List.append_assoc]
      exact hl' _ (by simp) List.prefix_rfl
    · obtain ⟨t₁, houter, hstat₁, hothers₁⟩ := ih hcheck' hshort' hfree'
      obtain ⟨t', hensure, hstat', hothers⟩ := hinner hstat₁ (hothers₁ _ fun ns _ hns heq => by
        rw [List.append_assoc, List.append_cancel_left_eq] at heq
        have hlength := hns.length_le
        rw [← heq, List.length_append, List.length_singleton] at hlength
        omega)
      rw [ensureDirectory_of_notFound h hparent.ne_empty hcheck hstat]
      dsimp only
      rw [houter]
      dsimp only
      rw [hensure]
      refine ⟨t', rfl, hstat', fun l' hl' => (hothers l' ?_).trans (hothers₁ l' ?_)⟩
      · rw [List.append_assoc]
        exact hl' _ (by simp) List.prefix_rfl
      · exact fun ns hne hns => hl' ns hne (hns.trans (List.prefix_append names [name]))

end PhpLint.FileTree
