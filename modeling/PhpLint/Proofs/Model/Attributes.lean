import Mathlib
import PhpLint.Model.Attributes
import PhpLint.Proofs.Text.Pieces

/-! A set of modifiers is what its text names. -/
namespace PhpLint

namespace Attributes

/-- The piece that stands for spare bits. -/
def sparePiece (spare : Fin 4) : String :=
  "0x" ++ String.ofList (Nat.toDigits 16 (64 * spare.val))

/-- The pieces of a set's text. -/
def pieces (a : Attributes) : List String :=
  a.toList.map Modifier.name ++ if a.spare == empty.spare then [] else [sparePiece a.spare]

theorem text_eq (a : Attributes) : a.text = " | ".intercalate a.pieces := by
  have htext : a.text = " | ".intercalate (if a.spare == empty.spare
      then a.toList.map Modifier.name
      else a.toList.map Modifier.name ++ [sparePiece a.spare]) := rfl
  rw [htext, pieces]
  split_ifs
  · rw [List.append_nil]
  · rfl

/-- Whether a piece is not empty and holds neither a bar nor white space. -/
def isClean (w : List Char) : Bool :=
  !w.isEmpty && w.all fun c => !Text.isWhiteSpace c && c != '|'

private theorem isClean_name (m : Modifier) : isClean m.name.toList := by
  cases m <;> decide

private theorem isClean_sparePiece : ∀ s : Fin 4, isClean (sparePiece s).toList := by
  decide

private theorem clean_pieces {a : Attributes} {w : List Char} (h : w ∈ a.pieces.map String.toList) :
    w ≠ [] ∧ ∀ c ∈ w, Text.isWhiteSpace c = false ∧ c ≠ '|' := by
  have hclean : isClean w := by
    obtain ⟨s, hs, rfl⟩ := List.mem_map.mp h
    rcases List.mem_append.mp hs with hs | hs
    · obtain ⟨m, _, rfl⟩ := List.mem_map.mp hs
      exact isClean_name m
    · split_ifs at hs
      · cases hs
      · rw [List.mem_singleton.mp hs]
        exact isClean_sparePiece a.spare
  simpa [isClean] using hclean

/-- The sets that the pieces of a text stand for. -/
def parts (a : Attributes) : List Attributes :=
  a.toList.map empty.insert ++
    if a.spare == empty.spare then [] else [{ empty with spare := a.spare }]

private theorem foldl_parts (a : Attributes) : a.parts.foldl union empty = a := by
  obtain ⟨p, q, r, s, t, u, v⟩ := a
  revert p q r s t u v
  decide

private theorem piece?_name (m : Modifier) : piece? m.name.toList = some (empty.insert m) := by
  cases m <;> rfl

private theorem piece?_sparePiece : ∀ s : Fin 4,
    piece? (sparePiece s).toList = some { empty with spare := s } := by
  decide

private theorem mapM_piece? (a : Attributes) :
    (a.pieces.map String.toList).mapM piece? = some a.parts := by
  have hnames (ms : List Modifier) :
      ((ms.map Modifier.name).map String.toList).mapM piece? = some (ms.map empty.insert) := by
    induction ms with
    | nil => rfl
    | cons m ms ih =>
      rw [List.map_cons, List.map_cons, List.mapM_cons, piece?_name, ih]
      rfl
  unfold pieces parts
  rw [List.map_append, List.mapM_append, hnames]
  split_ifs
  · rfl
  · rw [List.map_singleton, List.mapM_cons, piece?_sparePiece]
    rfl

/-- A set is what its text names. -/
theorem ofText?_text (a : Attributes) : ofText? a.text = some a := by
  have htext : a.text.toList = [' ', '|', ' '].intercalate (a.pieces.map String.toList) := by
    rw [text_eq, String.toList_intercalate]
    rfl
  have htrim := Text.trimBy_intercalate (p := Text.isWhiteSpace) [' ', '|', ' ']
    fun w hw => (clean_pieces (a := a) hw).imp_right fun hw c hc => (hw c hc).1
  unfold ofText?
  rw [htext, htrim]
  cases hpieces : a.pieces.map String.toList with
  | nil =>
    have hparts := mapM_piece? a
    rw [hpieces, List.mapM_nil, Option.pure_def, Option.some.injEq] at hparts
    rw [← foldl_parts a, ← hparts]
    rfl
  | cons w ws =>
    have hsplit := Text.map_trim_splitAt_intercalate (by rw [hpieces]; simp) fun w hw =>
      (clean_pieces (a := a) hw).2
    have hne : ([' ', '|', ' '].intercalate (w :: ws)).isEmpty = false := by
      have hw := (clean_pieces (a := a) (hpieces ▸ List.mem_cons_self)).1
      cases ws with
      | nil => simpa using hw
      | cons => simp [List.intercalate_cons_cons, hw]
    have hall : (w :: ws).mapM piece? = some a.parts := hpieces ▸ mapM_piece? a
    rw [hpieces] at hsplit
    simp only [hne, hsplit, hall]
    exact congrArg some (foldl_parts a)

end Attributes

end PhpLint
