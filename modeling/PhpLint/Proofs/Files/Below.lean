import PhpLint.Proofs.Files.Tree

/-!
What lies below a directory: the components and the places of the paths that are put behind it, and
the trees that differ nowhere else.
-/
namespace PhpLint

namespace Path

variable {path base name first : String} {rest : List String}

/-- A point at the front is kept, and what means nothing otherwise is not. -/
theorem components_of_pieces (h : pieces path = first :: rest) : components path =
    (if first = "." then ["."] else [first].filter (!isIdle ·)) ++ rest.filter (!isIdle ·) := by
  unfold components
  rw [h]
  split
  · rename_i hpieces
    obtain ⟨rfl, rfl⟩ := List.cons.inj hpieces
    rw [if_pos rfl]
    rfl
  · rename_i hpoint
    have hfirst : first ≠ "." := fun heq => hpoint rest (by rw [heq])
    rw [if_neg hfirst, ← List.filter_append, List.singleton_append]

/-- A name that is put behind a path is its last component. -/
theorem components_join (h : IsName name) (base : String) :
    components (join base name) = components base ++ [name] := by
  have hname : [name].filter (!isIdle ·) = [name] := List.filter_cons_of_pos (by simpa using h.2.1)
  obtain ⟨front, hjoin, hbase⟩ := pieces_join h base
  cases front with
  | nil =>
    have hempty : pieces base = [""] := hbase.resolve_left (pieces_ne_nil base)
    have hpoint : name ≠ "." := by
      rintro rfl
      exact h.2.1 rfl
    rw [components_of_pieces hjoin, components_of_pieces hempty, if_neg hpoint, hname]
    rfl
  | cons first front =>
    have hcomponents : components base =
        (if first = "." then ["."] else [first].filter (!isIdle ·)) ++ front.filter (!isIdle ·) := by
      rcases hbase with hbase | hbase
      · exact components_of_pieces hbase
      · rw [List.cons_append] at hbase
        rw [components_of_pieces hbase, List.filter_append]
        exact congrArg _ (List.append_nil _)
    rw [List.cons_append] at hjoin
    rw [components_of_pieces hjoin, hcomponents, List.filter_append, hname, List.append_assoc]

theorem below?_of_components (habsolute : isAbsolute path = isAbsolute base)
    (h : components path = components base ++ rest) : below? base path = some rest := by
  unfold below?
  dsimp only
  rw [h, List.isPrefixOf_iff_prefix.mpr (List.prefix_append _ _), habsolute, beq_self_eq_true,
    Bool.and_self, if_pos rfl, List.drop_left]

end Path

namespace FileTree

variable {t t' t'' : FileTree} {l : Location} {p : Location → Prop} {base path : String}

/-! ### Places below a directory -/

/-- Names that lead nowhere up lead down. -/
theorem place_eq_append {names : List String} (h : ".." ∉ names) (l : Location) :
    place l names = l ++ names.filter (!Path.isIdle ·) := by
  induction names generalizing l with
  | nil => exact (List.append_nil l).symm
  | cons name names ih =>
    rw [List.mem_cons, not_or] at h
    rw [place]
    by_cases hidle : Path.isIdle name
    · rw [if_pos hidle, ih h.2, List.filter_cons_of_neg (by simpa using hidle)]
    · rw [if_neg hidle, if_neg (by simpa using Ne.symm h.1), ih h.2,
        List.filter_cons_of_pos (by simpa using hidle), List.append_assoc, List.singleton_append]

/-- A relative path is followed from where the path in front of it leads. -/
theorem placeOf_join (h : Path.isAbsolute path = false) (base : String)
    (workingDirectory : Location) : placeOf workingDirectory (Path.join base path) =
      place (placeOf workingDirectory base) (Path.pieces path) := by
  obtain ⟨rfl, hjoin⟩ | ⟨front, rfl, hjoin⟩ | ⟨hne, hjoin⟩ := Path.join_cases_of_relative h base
  · have hplace : placeOf workingDirectory "" = workingDirectory :=
      place_idle (by decide) workingDirectory
    rw [hjoin, hplace, placeOf, h, if_neg Bool.false_ne_true]
  · have hidle : ∀ piece ∈ [""], Path.isIdle piece := by decide
    rw [hjoin, placeOf, placeOf, Path.isAbsolute_append (by simp), Path.pieces_append_slash,
      Path.pieces_concat_slash, place_append, place_append, place_idle hidle]
  · rw [hjoin, placeOf, placeOf, String.append_assoc, Path.isAbsolute_append hne,
      ← String.append_assoc, Path.pieces_append_slash, place_append]

/-! ### Trees that keep their files -/

/-- Files at some places are the same in two trees. -/
def KeepsFiles (p : Location → Prop) (t t' : FileTree) : Prop :=
  ∀ l content modified, p l →
    (t'.node? l = some (.file content modified) ↔ t.node? l = some (.file content modified))

theorem KeepsFiles.trans (h : KeepsFiles p t t') (h' : KeepsFiles p t' t'') : KeepsFiles p t t'' :=
  fun l content modified hl => (h' l content modified hl).trans (h l content modified hl)

theorem Grows.keepsFiles (h : t.Grows t') (p : Location → Prop) : KeepsFiles p t t' :=
  fun _ _ _ _ => ⟨h.file, h.node?⟩

theorem keepsFiles_put (h : ¬ p l) (t : FileTree) (node : Node) : KeepsFiles p t (t.put l node) := by
  intro l' content modified hl'
  rw [node?_put_of_ne (by rintro rfl; exact h hl')]

theorem keepsFiles_drop (h : ¬ p l) (t : FileTree) : KeepsFiles p t (t.drop l) := by
  intro l' content modified hl'
  rw [node?_drop_of_ne (by rintro rfl; exact h hl')]

end FileTree

end PhpLint
