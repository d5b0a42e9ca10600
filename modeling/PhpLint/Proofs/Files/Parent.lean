import PhpLint.Proofs.Files.Path

/-!
Parents of paths. A path below a directory is known from its pieces, and its parents are the
directories that lead to it.
-/
namespace PhpLint.Path

variable {path base name name' : String} {ps : List String}

theorem intercalate_pieces (path : String) : "/".intercalate (pieces path) = path := by
  rw [← String.toList_inj, String.toList_intercalate, pieces, List.map_map]
  have hid : String.toList ∘ String.ofList = id := funext fun _ => String.toList_ofList
  rw [hid, List.map_id]
  exact Text.intercalate_splitAt '/' path.toList

theorem pieces_of_isAbsolute (h : isAbsolute path) :
    ∃ rest, path = "/" ++ rest ∧ pieces path = "" :: pieces rest := by
  obtain ⟨s, hs⟩ := List.head?_eq_some_iff.mp (eq_of_beq h)
  have hpath : path = "" ++ "/" ++ String.ofList s := by
    rw [← String.toList_inj, hs]
    simp
  have hempty : pieces "" = [""] := by decide
  refine ⟨String.ofList s, hpath, ?_⟩
  rw [hpath, pieces_append_slash, hempty]
  rfl

theorem isAbsolute_of_pieces {rest : List String} (h : pieces path = "" :: rest)
    (hne : rest ≠ []) : isAbsolute path := by
  obtain ⟨piece, rest, rfl⟩ := List.exists_cons_of_ne_nil hne
  rw [← intercalate_pieces path, h, String.intercalate_cons_cons]
  unfold isAbsolute
  simp

/-- The pieces of a path behind the slash that makes it absolute. -/
def body (path : String) : List String :=
  if isAbsolute path then (pieces path).drop 1 else pieces path

theorem ofPieces_body (path : String) : ofPieces (isAbsolute path) (body path) = path := by
  unfold ofPieces body
  split_ifs with h
  · obtain ⟨rest, hpath, hpieces⟩ := pieces_of_isAbsolute h
    rw [hpieces, List.drop_one, List.tail_cons, intercalate_pieces, ← hpath]
  · rw [String.empty_append, intercalate_pieces]

theorem pieces_eq_body (path : String) :
    pieces path = (if isAbsolute path then [""] else []) ++ body path := by
  unfold body
  split_ifs with h
  · obtain ⟨rest, _, hrest⟩ := pieces_of_isAbsolute h
    rw [hrest]
    rfl
  · rfl

theorem trimEnd_concat (h : ¬ isIdle name) (pieces : List String) :
    trimEnd (pieces ++ [name]) = pieces ++ [name] := by
  unfold trimEnd
  rw [List.reverse_append, List.reverse_singleton, List.singleton_append,
    List.dropWhile_cons_of_neg h, List.reverse_cons, List.reverse_reverse]

theorem trimEnd_append_idle {idle : List String} (h : ∀ piece ∈ idle, isIdle piece)
    (pieces : List String) : trimEnd (pieces ++ idle) = trimEnd pieces := by
  unfold trimEnd
  rw [List.reverse_append,
    List.dropWhile_append_of_pos fun piece hpiece => h piece (List.mem_reverse.mp hpiece)]

theorem parent?_of_body {front : List String} (hbody : body path = front ++ [name])
    (hname : ¬ isIdle name) (hkept : trimEnd front ≠ [] ∨ isAbsolute path) :
    parent? path = some (ofPieces (isAbsolute path) (trimEnd front)) := by
  have htrim : trimEnd (if isAbsolute path then (pieces path).drop 1 else pieces path) =
      front ++ [name] := by
    change trimEnd (body path) = _
    rw [hbody, trimEnd_concat hname]
  have hpoint : ((trimEnd front).isEmpty && !isAbsolute path) = false := by
    rcases hkept with hkept | hkept
    · rw [List.isEmpty_eq_false_iff.mpr hkept, Bool.false_and]
    · rw [hkept, Bool.not_true, Bool.and_false]
  unfold parent?
  dsimp only
  rw [htrim]
  split
  · rename_i hnil
    simp at hnil
  · rename_i first rest hpieces
    rw [← hpieces, List.dropLast_concat, hpoint, Bool.false_and, Bool.false_and,
      if_neg Bool.false_ne_true]

/-- A point at the front of a relative path stays where nothing else would. -/
theorem parent?_of_point {front : List String} (hbody : body path = "." :: front ++ [name])
    (hname : ¬ isIdle name) (hkept : trimEnd ("." :: front) = [])
    (hpath : isAbsolute path = false) : parent? path = some "." := by
  have htrim : trimEnd (if isAbsolute path then (pieces path).drop 1 else pieces path) =
      "." :: front ++ [name] := by
    change trimEnd (body path) = _
    rw [hbody, trimEnd_concat hname]
  have hlast : ("." :: (front ++ [name])).dropLast = "." :: front := by
    rw [← List.cons_append, List.dropLast_concat]
  have hrest : (front ++ [name]).isEmpty = false := by simp
  unfold parent?
  dsimp only
  rw [htrim, List.cons_append]
  dsimp only
  rw [hlast, hkept, hpath, hrest]
  rfl

/-- The parent of a path is what the path puts a name behind, if that ends with a name itself. -/
theorem Extends.parent?_eq (h : Extends path base name) {front : List String} {last : String}
    (hbase : pieces base = front ++ [last]) (hlast : ¬ isIdle last) : parent? path = some base := by
  obtain ⟨front', idle, idle', hpath, hbase', hidle, hidle'⟩ := h.pieces_eq
  have hnil : idle' = [] := by
    rcases List.eq_nil_or_concat idle' with hnil | ⟨idles, piece, hconcat⟩
    · exact hnil
    · rw [hconcat, List.concat_eq_append, hbase, ← List.append_assoc] at hbase'
      have hpiece := List.singleton_inj.mp (List.append_inj' hbase' rfl).2
      exact absurd (hidle' piece (by rw [hconcat]; simp)) (hpiece ▸ hlast)
  rw [hnil, List.append_nil] at hbase'
  rw [← hbase'] at hpath
  have hbody : body path = body base ++ idle ++ [name] := by
    unfold body
    rw [h.isAbsolute_eq, hpath]
    split_ifs with habsolute
    · obtain ⟨rest, _, hrest⟩ := pieces_of_isAbsolute habsolute
      rw [hrest]
      rfl
    · rfl
  have hends : ∃ front', body base = front' ++ [last] := by
    unfold body
    split_ifs with habsolute
    · obtain ⟨rest, _, hrest⟩ := pieces_of_isAbsolute habsolute
      cases front with
      | nil =>
        rw [hbase, List.nil_append, List.cons.injEq] at hrest
        exact absurd (by rw [hrest.1]; rfl) hlast
      | cons piece front => exact ⟨front, by rw [hbase]; rfl⟩
    · exact ⟨front, hbase⟩
  obtain ⟨front₁, hends⟩ := hends
  have hkept : trimEnd (body base ++ idle) = body base := by
    rw [trimEnd_append_idle hidle, hends, trimEnd_concat hlast]
  have hne : body base ≠ [] := by
    rw [hends]
    exact List.concat_ne_nil last front₁
  rw [parent?_of_body hbody h.isName.2.1 (Or.inl (by rwa [hkept])), hkept, h.isAbsolute_eq,
    ofPieces_body]

/-- A path with its parents, that lead to it from a directory through names. Each extends the next
one, and what follows the shortest one does not count. -/
inductive Descends (base : String) : List String → String → List String → Prop
  | one {path name : String} (h : Extends path base name) (rest : List String) :
      Descends base [name] path rest
  | more {path parent name : String} {names rest : List String} (h : Extends path parent name)
      (hparent : Descends base names parent rest) :
      Descends base (names ++ [name]) path (parent :: rest)

theorem Descends.ne_empty {names rest : List String} (h : Descends base names path rest) :
    path ≠ "" := by
  cases h with
  | one h => exact h.ne_empty
  | more h => exact h.ne_empty

theorem descends_ancestors_join (h : IsName name) (h' : IsName name') (base : String) :
    ∃ rest, ancestors (join (join base name) name') = join (join base name) name' :: rest ∧
      Descends base [name, name'] (join (join base name) name') rest := by
  obtain ⟨front, hpieces, _⟩ := pieces_join h base
  have hextends := extends_join h' (join base name)
  unfold ancestors
  rw [ancestors.go, hextends.parent?_eq hpieces h.2.1]
  cases hlength : (join (join base name) name').length with
  | zero => exact absurd (String.length_eq_zero_iff.mp hlength) hextends.ne_empty
  | succ n => exact ⟨_, rfl, .more hextends (.one (extends_join h base) _)⟩

/-! ### Pieces behind a path -/

/-- A path with further pieces behind it. -/
def under (base : String) (ps : List String) : String :=
  ps.foldl (fun path piece => path ++ "/" ++ piece) base

variable {ps : List String}

theorem under_concat (base : String) (ps : List String) (piece : String) :
    under base (ps ++ [piece]) = under base ps ++ "/" ++ piece := by
  unfold under
  rw [List.foldl_append, List.foldl_cons, List.foldl_nil]

theorem exists_under_append (base : String) (ps qs : List String) :
    ∃ rest, under base (ps ++ qs) = under base ps ++ rest := by
  induction qs using List.reverseRecOn with
  | nil => exact ⟨"", by rw [List.append_nil, String.append_empty]⟩
  | append_singleton qs piece ih =>
    obtain ⟨rest, hrest⟩ := ih
    exact ⟨rest ++ "/" ++ piece, by
      rw [← List.append_assoc, under_concat, hrest, String.append_assoc, String.append_assoc,
        String.append_assoc]⟩

theorem length_le_length_under (base : String) (ps : List String) :
    base.length + ps.length ≤ (under base ps).length := by
  induction ps using List.reverseRecOn with
  | nil => exact le_rfl
  | append_singleton ps piece ih =>
    rw [under_concat, String.length_append, String.length_append, List.length_append]
    have hslash : "/".length = 1 := rfl
    simp only [List.length_singleton]
    omega

theorem isAbsolute_under (hne : base ≠ "") (ps : List String) :
    isAbsolute (under base ps) = isAbsolute base := by
  obtain ⟨rest, hrest⟩ := exists_under_append base [] ps
  rw [List.nil_append] at hrest
  rw [hrest]
  exact isAbsolute_append hne rest

theorem pieces_under (h : ∀ piece ∈ ps, '/' ∉ piece.toList) (base : String) :
    pieces (under base ps) = pieces base ++ ps := by
  induction ps using List.reverseRecOn with
  | nil => exact (List.append_nil _).symm
  | append_singleton ps piece ih =>
    rw [under_concat, pieces_append_slash,
      ih fun piece' hpiece' => h piece' (List.mem_append_left _ hpiece'),
      pieces_of_not_mem (h piece (List.mem_append_right _ List.mem_cons_self)), List.append_assoc]

theorem not_mem_of_mem_pieces {path piece : String} (h : piece ∈ pieces path) :
    '/' ∉ piece.toList := by
  obtain ⟨w, hw, rfl⟩ := List.mem_map.mp h
  rw [String.toList_ofList]
  exact fun hmem => (Text.mem_of_mem_splitAt hw hmem).2 rfl

/-- A relative path is put behind a path that ends with a name. -/
theorem Extends.join_eq_under (h : Extends path base name) {rest : String}
    (hrest : isAbsolute rest = false) : join path rest = under path (pieces rest) := by
  have hjoin : join path rest = path ++ "/" ++ rest := by
    unfold join
    rw [hrest, Bool.false_or, if_neg (by simpa using h.ne_empty),
      if_neg (by simpa using h.getLast?_ne)]
  rw [hjoin, ← intercalate_pieces (path ++ "/" ++ rest), pieces_append_slash,
    ← pieces_under (fun piece => not_mem_of_mem_pieces) path, intercalate_pieces]

theorem exists_trimEnd_append (ps : List String) :
    ∃ idle, ps = trimEnd ps ++ idle ∧ ∀ piece ∈ idle, isIdle piece := by
  refine ⟨(ps.reverse.takeWhile isIdle).reverse, ?_, fun piece hpiece => ?_⟩
  · unfold trimEnd
    rw [← List.reverse_append, List.takeWhile_append_dropWhile, List.reverse_reverse]
  · exact List.mem_takeWhile_imp (List.mem_reverse.mp hpiece)

theorem trimEnd_trimEnd (ps : List String) : trimEnd (trimEnd ps) = trimEnd ps := by
  unfold trimEnd
  rw [List.reverse_reverse, List.dropWhile_idempotent]

/-- What is left of some pieces ends with a name. -/
theorem trimEnd_cases (ps : List String) :
    trimEnd ps = [] ∨ ∃ front last, trimEnd ps = front ++ [last] ∧ ¬ isIdle last := by
  unfold trimEnd
  cases hdrop : ps.reverse.dropWhile isIdle with
  | nil => exact Or.inl rfl
  | cons last front =>
    refine Or.inr ⟨front.reverse, last, List.reverse_cons, ?_⟩
    have hhead := List.head?_dropWhile_not isIdle ps.reverse
    rw [hdrop] at hhead
    simpa using hhead

theorem filter_trimEnd (ps : List String) :
    (trimEnd ps).filter (!isIdle ·) = ps.filter (!isIdle ·) := by
  obtain ⟨idle, hps, hidle⟩ := exists_trimEnd_append ps
  have hnone : idle.filter (!isIdle ·) = [] := by
    rw [List.filter_eq_nil_iff]
    exact fun piece hpiece => by simp [hidle piece hpiece]
  conv_rhs => rw [hps, List.filter_append, hnone, List.append_nil]

theorem extends_under (hne : base ≠ "") (hps : ∀ piece ∈ ps, '/' ∉ piece.toList)
    (h : IsName name) : Extends (under base (ps ++ [name])) (under base (trimEnd ps)) name := by
  obtain ⟨idle, htrim, hidle⟩ := exists_trimEnd_append ps
  have hpieces : ∀ piece ∈ trimEnd ps, '/' ∉ piece.toList := fun piece hpiece =>
    hps piece (by rw [htrim]; exact List.mem_append_left _ hpiece)
  refine ⟨h, ?_, ?_, pieces base ++ trimEnd ps, idle, [], ?_, ?_, hidle, nofun⟩
  · rw [isAbsolute_under hne, isAbsolute_under hne]
  · have hrest := exists_under_append base (trimEnd ps) (idle ++ [name])
    rwa [← List.append_assoc, ← htrim] at hrest
  · rw [under_concat, pieces_append_slash, pieces_under hps, pieces_of_not_mem h.1,
      List.append_assoc _ _ idle, ← htrim]
  · rw [pieces_under hpieces, List.append_nil]

theorem Extends.parent?_under (h : Extends path base name)
    (hps : ∀ piece ∈ ps, '/' ∉ piece.toList) {last : String} (hlast : IsName last) :
    parent? (under path (ps ++ [last])) = some (under path (trimEnd ps)) := by
  have hextends := extends_under h.ne_empty hps hlast
  have hfree : ∀ piece ∈ trimEnd ps, '/' ∉ piece.toList := by
    obtain ⟨idle, htrim, _⟩ := exists_trimEnd_append ps
    exact fun piece hpiece => hps piece (by rw [htrim]; exact List.mem_append_left _ hpiece)
  have hpieces := pieces_under hfree path
  rcases trimEnd_cases ps with hnil | ⟨front, piece, hfront, hpiece⟩
  · obtain ⟨front, hpath⟩ := h.exists_pieces
    rw [hnil, List.append_nil, hpath] at hpieces
    rw [hnil] at hextends ⊢
    exact hextends.parent?_eq hpieces h.isName.2.1
  · rw [hfront, ← List.append_assoc, ← hfront] at hpieces
    exact hextends.parent?_eq hpieces hpiece

theorem Extends.descends_go (h : Extends path base name) {n : Nat} (hlength : ps.length ≤ n)
    (hps : ∀ piece ∈ ps, '/' ∉ piece.toList ∧ piece ≠ "..") : ∃ rest,
      ancestors.go (n + 1) (under path (trimEnd ps)) = under path (trimEnd ps) :: rest ∧
        Descends base (name :: ps.filter (!isIdle ·)) (under path (trimEnd ps)) rest := by
  induction n generalizing ps with
  | zero =>
    rw [List.eq_nil_of_length_eq_zero (Nat.le_zero.mp hlength)]
    exact ⟨_, rfl, .one h _⟩
  | succ n ih =>
    rw [← filter_trimEnd]
    obtain ⟨idle, htrim, _⟩ := exists_trimEnd_append ps
    rcases trimEnd_cases ps with hnil | ⟨front, last, hfront, hlast⟩
    · rw [hnil]
      exact ⟨_, rfl, .one h _⟩
    rw [hfront] at htrim ⊢
    have hmem {piece : String} (hpiece : piece ∈ front ++ [last]) : piece ∈ ps := by
      rw [htrim]
      exact List.mem_append_left _ hpiece
    have hfree (piece : String) (hpiece : piece ∈ front) :=
      hps piece (hmem (List.mem_append_left _ hpiece))
    have hname : IsName last := by
      obtain ⟨hslash, hdots⟩ := hps last (hmem (List.mem_append_right _ List.mem_cons_self))
      exact ⟨hslash, hlast, hdots⟩
    have hshort : front.length ≤ n := by
      have htext := congrArg List.length htrim
      simp only [List.length_append, List.length_singleton] at htext
      omega
    obtain ⟨rest, hgo, hdescends⟩ := ih hshort hfree
    have hextends := extends_under h.ne_empty (fun piece hpiece => (hfree piece hpiece).1) hname
    have hparent := h.parent?_under (fun piece hpiece => (hfree piece hpiece).1) hname
    refine ⟨under path (trimEnd front) :: rest, ?_, ?_⟩
    · rw [ancestors.go, hparent, ← hgo]
    · rw [List.filter_append, List.filter_cons_of_pos (by simpa using hlast), List.filter_nil,
        ← List.cons_append]
      exact .more hextends hdescends

/-- The parents of a path below a directory are the directories that lead to it. -/
theorem Extends.descends_ancestors (h : Extends path base name)
    (hps : ∀ piece ∈ ps, '/' ∉ piece.toList ∧ piece ≠ "..") : ∃ rest,
      ancestors (under path (trimEnd ps)) = under path (trimEnd ps) :: rest ∧
        Descends base (name :: ps.filter (!isIdle ·)) (under path (trimEnd ps)) rest := by
  obtain ⟨idle, htrim, _⟩ := exists_trimEnd_append ps
  have hlength := length_le_length_under path (trimEnd ps)
  have hfree : ∀ piece ∈ trimEnd ps, '/' ∉ piece.toList ∧ piece ≠ ".." := fun piece hpiece =>
    hps piece (by rw [htrim]; exact List.mem_append_left _ hpiece)
  have hgo := h.descends_go (le_trans (Nat.le_add_left _ _) hlength) hfree
  rw [trimEnd_trimEnd, filter_trimEnd] at hgo
  exact hgo

/-! ### The parent of a path that ends with a name -/

theorem eq_under_of_pieces {path base : String} {ps : List String}
    (hps : ∀ piece ∈ ps, '/' ∉ piece.toList) (h : pieces path = pieces base ++ ps) :
    path = under base ps := by
  rw [← intercalate_pieces path, h, ← pieces_under hps, intercalate_pieces]

theorem pieces_intercalate {piece : String} (h : ∀ p ∈ piece :: ps, '/' ∉ p.toList) :
    pieces ("/".intercalate (piece :: ps)) = piece :: ps := by
  have hunder : pieces (under piece ps) = piece :: ps := by
    rw [pieces_under (fun p hp => h p (List.mem_cons_of_mem piece hp)),
      pieces_of_not_mem (h piece List.mem_cons_self)]
    rfl
  rw [← hunder, intercalate_pieces, hunder]

/-- Whether two paths are the same but for what means nothing at their ends. -/
structure SameName (path path' : String) : Prop where
  isAbsolute_eq : isAbsolute path' = isAbsolute path
  pieces_eq : ∃ front idle idle', pieces path = front ++ idle ∧ pieces path' = front ++ idle' ∧
    (∀ piece ∈ idle, isIdle piece) ∧ ∀ piece ∈ idle', isIdle piece

theorem pieces_ne_nil (path : String) : pieces path ≠ [] := by
  unfold pieces
  rw [Ne, List.map_eq_nil_iff]
  exact Text.splitAt_ne_nil '/' path.toList

/-- The pieces of a path that a name is put behind, with what means nothing at their end. -/
theorem exists_pieces_join (h : IsName name) (hne : base ≠ "") :
    ∃ piece front idle, pieces (join base name) = piece :: front ++ [name] ∧
      pieces base = piece :: front ++ idle ∧ ∀ piece ∈ idle, isIdle piece := by
  obtain ⟨front, hpath, hbase | hbase⟩ := pieces_join h base
  · obtain ⟨piece, front, rfl⟩ := List.exists_cons_of_ne_nil (hbase ▸ pieces_ne_nil base)
    exact ⟨piece, front, [], hpath, by rw [hbase, List.append_nil], nofun⟩
  · cases front with
    | nil =>
      refine absurd ?_ hne
      rw [← intercalate_pieces base, hbase]
      rfl
    | cons piece front =>
      refine ⟨piece, front, [""], hpath, hbase, fun piece hpiece => ?_⟩
      rw [List.mem_singleton.mp hpiece]
      rfl

/-- What some pieces of a path begin with, the path begins with. -/
theorem exists_append_of_pieces {path base : String} (h : pieces base <+: pieces path) :
    ∃ rest, path = base ++ rest := by
  obtain ⟨ps, hps⟩ := h
  have hslash : ∀ piece ∈ ps, '/' ∉ piece.toList := fun piece hpiece =>
    not_mem_of_mem_pieces (hps ▸ List.mem_append_right _ hpiece)
  rw [eq_under_of_pieces hslash hps.symm]
  exact exists_under_append base [] ps

variable {piece : String} {front idle : List String}

theorem pieces_ofPieces {ps : List String} (hslash : ∀ piece ∈ ps, '/' ∉ piece.toList)
    (hne : ps ≠ []) (absolute : Bool) :
    pieces (ofPieces absolute ps) = if absolute then "" :: ps else ps := by
  obtain ⟨piece, ps, rfl⟩ := List.exists_cons_of_ne_nil hne
  unfold ofPieces
  cases absolute with
  | false =>
    rw [if_neg Bool.false_ne_true, if_neg Bool.false_ne_true, String.empty_append,
      pieces_intercalate hslash]
  | true =>
    have hempty : pieces "" = [""] := by decide
    have htext := pieces_append_slash "" ("/".intercalate (piece :: ps))
    rw [pieces_intercalate hslash, hempty, String.empty_append] at htext
    rw [if_pos rfl, if_pos rfl, htext]
    rfl

/-- The parent of a path keeps all pieces that count. -/
theorem exists_parent?_of_trimEnd {ps : List String} (hbody : body path = ps ++ [name])
    (hname : ¬ isIdle name) (hkept : trimEnd ps ≠ []) : ∃ parent idle,
      parent? path = some parent ∧ parent ≠ "" ∧ (∃ rest, path = parent ++ rest) ∧
        (if isAbsolute path then [""] else []) ++ ps = pieces parent ++ idle ∧
        ∀ piece ∈ idle, isIdle piece := by
  obtain ⟨idle, htrim, hidle⟩ := exists_trimEnd_append ps
  have hpath := pieces_eq_body path
  rw [hbody] at hpath
  have hslash : ∀ piece ∈ trimEnd ps, '/' ∉ piece.toList := by
    intro piece hpiece
    have hmem : piece ∈ pieces path := by
      rw [hpath, htrim]
      simp [hpiece]
    exact not_mem_of_mem_pieces hmem
  have hparent : pieces (ofPieces (isAbsolute path) (trimEnd ps)) =
      (if isAbsolute path then [""] else []) ++ trimEnd ps := by
    rw [pieces_ofPieces hslash hkept]
    split_ifs <;> rfl
  refine ⟨_, idle, parent?_of_body hbody hname (Or.inl hkept), ?_, ?_, ?_, hidle⟩
  · intro hempty
    obtain hnil | ⟨front, last, hfront, hlast⟩ := trimEnd_cases ps
    · exact hkept hnil
    · have hnone : pieces "" = [] ++ [""] := by decide
      rw [hempty, hnone, hfront, ← List.append_assoc] at hparent
      have hpiece := List.singleton_inj.mp (List.append_inj' hparent rfl).2
      exact hlast (by rw [← hpiece]; rfl)
  · refine exists_append_of_pieces ?_
    rw [hparent, hpath, htrim, trimEnd_append_idle hidle, trimEnd_trimEnd, List.append_assoc]
    exact (List.prefix_append_right_inj _).mpr (List.prefix_append _ _)
  · rw [hparent, List.append_assoc, ← htrim]

theorem isIdle_of_trimEnd_eq_nil {ps : List String} (h : trimEnd ps = []) :
    ∀ piece ∈ ps, isIdle piece := by
  obtain ⟨idle, htrim, hidle⟩ := exists_trimEnd_append ps
  rw [h, List.nil_append] at htrim
  exact htrim ▸ hidle

/-- The parent of a path that ends with a name is what the name is behind. -/
theorem exists_parent?_join (h : IsName name) (hne : base ≠ "") : ∃ parent,
    parent? (join base name) = some parent ∧ parent ≠ "" ∧
      (∃ rest, join base name = parent ++ rest) ∧ SameName base parent := by
  obtain ⟨piece, front, idle, hpath, hbase, hidle⟩ := exists_pieces_join h hne
  have hsame := isAbsolute_join h base
  generalize join base name = path at hpath hsame ⊢
  have hbody := pieces_eq_body path
  rw [hpath] at hbody
  -- a parent that keeps pieces
  have hkeep {ps : List String} (hps : body path = ps ++ [name]) (hkept : trimEnd ps ≠ [])
      (hfirst : (if isAbsolute path then [""] else []) ++ ps = piece :: front) :
      ∃ parent, parent? path = some parent ∧ parent ≠ "" ∧ (∃ rest, path = parent ++ rest) ∧
        SameName base parent := by
    obtain ⟨parent, idle', hparent, hne', ⟨rest, hrest⟩, hpieces, hidle'⟩ :=
      exists_parent?_of_trimEnd hps h.2.1 hkept
    refine ⟨parent, hparent, hne', ⟨rest, hrest⟩, ?_, pieces parent, idle' ++ idle, [], ?_,
      (List.append_nil _).symm, fun p hp => (List.mem_append.mp hp).elim (hidle' p) (hidle p),
      nofun⟩
    · rw [← hsame, hrest, isAbsolute_append hne']
    · rw [hbase, ← hfirst, hpieces, List.append_assoc]
  by_cases habsolute : isAbsolute path
  · rw [if_pos habsolute, List.cons_append, List.cons_append, List.nil_append, List.cons.injEq]
      at hbody
    by_cases hkept : trimEnd front = []
    · obtain ⟨rest, htext, _⟩ := pieces_of_isAbsolute habsolute
      have hparent := parent?_of_body hbody.2.symm h.2.1 (Or.inr habsolute)
      rw [hkept, habsolute] at hparent
      have hslash : pieces "/" = [] ++ ["", ""] := by decide
      refine ⟨"/", hparent, by decide, ⟨rest, htext⟩, by rw [← hsame, habsolute]; rfl,
        [], _, _, hbase, hslash, ?_, by decide⟩
      intro p hp
      rw [hbody.1] at hp
      obtain rfl | hp := List.mem_cons.mp hp
      · rfl
      · exact (List.mem_append.mp hp).elim (isIdle_of_trimEnd_eq_nil hkept p) (hidle p)
    · refine hkeep hbody.2.symm hkept ?_
      rw [if_pos habsolute, hbody.1]
      rfl
  · rw [if_neg habsolute, List.nil_append] at hbody
    by_cases hkept : trimEnd (piece :: front) = []
    · have hall := isIdle_of_trimEnd_eq_nil hkept
      have hpoint : piece = "." := by
        have hpiece := hall piece List.mem_cons_self
        unfold isIdle at hpiece
        rw [Bool.or_eq_true, beq_iff_eq, beq_iff_eq] at hpiece
        refine hpiece.resolve_left fun hempty => habsolute ?_
        rw [hempty, List.cons_append] at hpath
        exact isAbsolute_of_pieces hpath (List.concat_ne_nil name front)
      rw [hpoint] at hbody hkept hpath
      have hparent := parent?_of_point hbody.symm h.2.1 hkept (by simpa using habsolute)
      have hpieces : pieces "." = [] ++ ["."] := by decide
      refine ⟨".", hparent, by decide, exists_append_of_pieces ?_, ?_, [], _, _, hbase, hpieces, ?_,
        by decide⟩
      · rw [hpath, hpieces]
        exact List.prefix_append _ _
      · rw [← hsame, Bool.eq_false_iff.mpr habsolute]
        rfl
      · exact fun p hp => (List.mem_append.mp hp).elim (hall p) (hidle p)
    · refine hkeep hbody.symm hkept ?_
      rw [if_neg habsolute]
      rfl

end PhpLint.Path
