import PhpLint.Proofs.Files.Directory

/-! Files below a directory, and what is found in them after one is written. -/
namespace PhpLint

namespace Path

/-- A path that leads from a directory through the directories of some names to a file. The
directory that the file is in is its parent. -/
inductive Leads (base : String) : List String → String → String → Prop
  | inside {path parent name : String} (h : Extends path base name)
      (hparent : parent? path = some parent) (hne : parent ≠ "")
      (hbegins : ∃ rest, path = parent ++ rest) (hsame : SameName base parent) :
      Leads base [] name path
  | below {path parent name : String} {names rest : List String} (h : Extends path parent name)
      (hparent : parent? path = some parent) (hancestors : ancestors parent = parent :: rest)
      (hnames : Descends base names parent rest) : Leads base names name path

variable {path base parent name : String} {names rest ps : List String}

theorem leads_join (h : IsName name) (hne : base ≠ "") : Leads base [] name (join base name) := by
  obtain ⟨parent, hparent, hparent', hbegins, hsame⟩ := exists_parent?_join h hne
  exact .inside (extends_join h base) hparent hparent' hbegins hsame

theorem leads_under (h : Extends path base name)
    (hps : ∀ piece ∈ ps, '/' ∉ piece.toList ∧ piece ≠ "..") {last : String} (hlast : IsName last) :
    Leads base (name :: ps.filter (!isIdle ·)) last (under path (ps ++ [last])) := by
  have hslash : ∀ piece ∈ ps, '/' ∉ piece.toList := fun piece hpiece => (hps piece hpiece).1
  obtain ⟨rest, hancestors, hdescends⟩ := h.descends_ancestors hps
  exact .below (extends_under h.ne_empty hslash hlast) (h.parent?_under hslash hlast) hancestors
    hdescends

/-! ### The names on the way -/

theorem Extends.mem_pieces (h : Extends path base name) : name ∈ pieces path := by
  obtain ⟨front, hpath⟩ := h.exists_pieces
  rw [hpath]
  exact List.mem_append_right _ List.mem_cons_self

theorem Extends.mem_pieces_of_base (h : Extends path base name) {piece : String}
    (hpiece : piece ∈ pieces base) (hcounts : ¬ isIdle piece) : piece ∈ pieces path := by
  obtain ⟨front, idle, idle', hpath, hbase, _, hidle'⟩ := h.pieces_eq
  rw [hbase, List.mem_append] at hpiece
  rw [hpath, List.append_assoc]
  exact List.mem_append_left _ (hpiece.resolve_right fun hmem => hcounts (hidle' piece hmem))

theorem Descends.mem_pieces (h : Descends base names path rest) :
    ∀ piece ∈ names, ¬ isIdle piece ∧ piece ∈ pieces path := by
  induction h with
  | one h => exact List.forall_mem_singleton.mpr ⟨h.isName.2.1, h.mem_pieces⟩
  | more h hparent ih =>
    intro piece hpiece
    rcases List.mem_append.mp hpiece with hpiece | hpiece
    · exact ⟨(ih piece hpiece).1, h.mem_pieces_of_base (ih piece hpiece).2 (ih piece hpiece).1⟩
    · rw [List.mem_singleton.mp hpiece]
      exact ⟨h.isName.2.1, h.mem_pieces⟩

theorem Leads.mem_pieces (h : Leads base names name path) :
    (∀ piece ∈ names, piece ∈ pieces path) ∧ name ∈ pieces path := by
  cases h with
  | inside h => exact ⟨nofun, h.mem_pieces⟩
  | below h _ _ hnames =>
    refine ⟨fun piece hpiece => ?_, h.mem_pieces⟩
    obtain ⟨hcounts, hmem⟩ := hnames.mem_pieces piece hpiece
    exact h.mem_pieces_of_base hmem hcounts

end Path

namespace FileTree

variable {t t' : FileTree} {l : Location} {path path' base name : String}
  {names rest : List String}

theorem placeOf_descends (h : Path.Descends base names path rest) (workingDirectory : Location) :
    placeOf workingDirectory path = placeOf workingDirectory base ++ names := by
  induction h with
  | one h => exact placeOf_extends h workingDirectory
  | more h hparent ih => rw [placeOf_extends h, ih, List.append_assoc]

theorem placeOf_leads (h : Path.Leads base names name path) (workingDirectory : Location) :
    placeOf workingDirectory path = placeOf workingDirectory base ++ names ++ [name] := by
  cases h with
  | inside h => rw [placeOf_extends h, List.append_nil]
  | below h _ _ hnames => rw [placeOf_extends h, placeOf_descends hnames]

/-! ### Directories for a file -/

/-- Whether nothing is wrong with a path, and the names in it are short enough. -/
def Fits (path : String) : Prop :=
  checkPath path = .ok () ∧ ∀ piece ∈ Path.pieces path, piece.utf8ByteSize ≤ longestName

instance : DecidablePred Fits := fun path =>
  inferInstanceAs (Decidable (checkPath path = .ok () ∧
    ∀ piece ∈ Path.pieces path, piece.utf8ByteSize ≤ longestName))

/-- The directory that a file is in is found or made, with those around it. Nothing else
changes. -/
theorem ensureDirectories_leads (h : Path.Leads base names name path) (hfits : Fits path)
    (hbase : t.stat base = .ok (l, .directory))
    (hfree : ∀ ns, ns <+: names → ∀ content modified,
      t.node? (l ++ ns) ≠ some (.file content modified)) :
    ∃ t', t.ensureDirectories ((Path.parent? path).getD "") = (.ok (), t') ∧
      t'.locate path = .ok (l ++ names ++ [name]) ∧
      ∀ l', (∀ ns, ns ≠ [] → ns <+: names → l' ≠ l ++ ns) → t'.node? l' = t.node? l' := by
  obtain ⟨hcheck, hshort⟩ := hfits
  have hname := hshort name h.mem_pieces.2
  cases h with
  | @inside path parent name h hparent hne hbegins hsame =>
    obtain ⟨rest, rfl⟩ := hbegins
    have hstat := stat_of_sameName hsame (checkPath_of_append hne hcheck) hbase
    have hbase' := ne_empty_of_checkPath (checkPath_of_stat hbase)
    refine ⟨t, ?_, ?_, fun _ _ => rfl⟩
    · rw [hparent]
      exact ensureDirectories_of_stat hstat
    · rw [List.append_nil]
      exact (locate_extends h hbase').mpr ⟨hcheck, hname, l, hbase, rfl⟩
  | @below path parent name names rest h hparent hancestors hnames =>
    have hshort' (piece : String) (hpiece : piece ∈ names) : piece.utf8ByteSize ≤ longestName := by
      obtain ⟨hcounts, hmem⟩ := hnames.mem_pieces piece hpiece
      exact hshort piece (h.mem_pieces_of_base hmem hcounts)
    obtain ⟨t', hensure, hstat, hothers⟩ := ensureFirst_descends hnames
      (checkPath_of_extends h hnames.ne_empty hcheck) hshort' hbase hfree
    refine ⟨t', ?_, ?_, hothers⟩
    · rw [hparent, Option.getD_some]
      unfold ensureDirectories
      rw [hancestors, hensure]
    · exact (locate_extends h hnames.ne_empty).mpr ⟨hcheck, hname, _, hstat, rfl⟩

/-! ### What is found in files -/

theorem Grows.read (h : t.Grows t') {data : ByteArray} (hread : t.read path = .ok data) :
    t'.read path = .ok data := by
  obtain ⟨l, modified, hstat⟩ := read_eq_ok.mp hread
  exact read_eq_ok.mpr ⟨l, modified, h.stat hstat⟩

theorem read_of_write {data : ByteArray} (h : t.write path data = .ok t') :
    t'.read path = .ok data := by
  obtain ⟨l, hlocate, hnode, rfl⟩ := write_eq_ok.mp h
  refine read_eq_ok.mpr ⟨l, t.now, stat_eq_ok.mpr ⟨?_, node?_put_self (ne_nil_of_node? hnode) t _⟩⟩
  exact (keepsDirectories_put hnode _).locate hlocate

theorem workingDirectory_write {data : ByteArray} (h : t.write path data = .ok t') :
    t'.workingDirectory = t.workingDirectory := by
  obtain ⟨l, _, _, rfl⟩ := write_eq_ok.mp h
  rfl

/-- A file that is written takes the place of one, and leaves the others as they are. -/
theorem read_of_write_of_read {data data' : ByteArray} (h : t.write path data = .ok t')
    (hread : t.read path' = .ok data') :
    t'.read path' = .ok
      (if placeOf t.workingDirectory path = placeOf t.workingDirectory path' then data
        else data') := by
  obtain ⟨l, hlocate, hnode, rfl⟩ := write_eq_ok.mp h
  obtain ⟨l', modified, hstat⟩ := read_eq_ok.mp hread
  obtain ⟨hlocate', hnode'⟩ := stat_eq_ok.mp hstat
  rw [placeOf_of_locate hlocate, placeOf_of_locate hlocate', read_eq_ok]
  have hkept := (keepsDirectories_put hnode (.file data t.now)).locate hlocate'
  split_ifs with hsame
  · rw [← hsame] at hkept
    exact ⟨l, t.now, stat_eq_ok.mpr ⟨hkept, node?_put_self (ne_nil_of_node? hnode) t _⟩⟩
  · refine ⟨l', modified, stat_eq_ok.mpr ⟨hkept, ?_⟩⟩
    rw [node?_put_of_ne (Ne.symm hsame)]
    exact hnode'

end FileTree

end PhpLint
