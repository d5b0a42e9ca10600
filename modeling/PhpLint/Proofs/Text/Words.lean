import Mathlib
import PhpLint.Text.WhiteSpace

/-!
Words between separators. Separators in a row count as one, and those at the ends do not count, so
that the words of a text are all that is left when white space is reduced to single blanks.
-/
namespace PhpLint.Text

section Pieces

variable {α β : Type} {p : α → Bool} {q : β → Bool} {l : List α}

/-- The longest pieces that hold no separator. -/
def piecesBy (p : α → Bool) (l : List α) : List (List α) :=
  (l.splitOnP p).filter (!·.isEmpty)

theorem piecesBy_append_cons {sep : α} (h : p sep) (xs ys : List α) :
    piecesBy p (xs ++ sep :: ys) = piecesBy p xs ++ piecesBy p ys := by
  unfold piecesBy
  rw [List.splitOnP_append_cons xs ys h, List.filter_append]

theorem piecesBy_of_not {xs : List α} (h : ∀ x ∈ xs, p x = false) :
    piecesBy p xs = if xs = [] then [] else [xs] := by
  unfold piecesBy
  rw [List.splitOnP_eq_singleton h]
  split_ifs with hnil
  · rw [hnil]
    rfl
  · exact List.filter_cons_of_pos (by simpa using hnil)

/-- A part that ends at the first separator can be told from what follows it. -/
theorem append_separator_inj {a : α} {x y s t : List α} (hx : a ∉ x) (hy : a ∉ y)
    (h : x ++ a :: s = y ++ a :: t) : x = y ∧ s = t := by
  induction x generalizing y with
  | nil =>
    cases y with
    | nil => exact ⟨rfl, List.tail_eq_of_cons_eq h⟩
    | cons b y =>
      obtain ⟨rfl, -⟩ := List.cons.inj h
      exact absurd List.mem_cons_self hy
  | cons b x ih =>
    rw [List.mem_cons, not_or] at hx
    cases y with
    | nil =>
      obtain ⟨hb, -⟩ := List.cons.inj h
      exact absurd hb.symm hx.1
    | cons c y =>
      rw [List.mem_cons, not_or] at hy
      obtain ⟨hb, hrest⟩ := List.cons.inj h
      obtain ⟨hxy, hst⟩ := ih hx.2 hy.2 hrest
      exact ⟨by rw [hb, hxy], hst⟩

/-- A list holds no separator, or it begins anew behind the first one. -/
theorem separators_induction {motive : List α → Prop}
    (free : ∀ xs, (∀ x ∈ xs, p x = false) → motive xs)
    (separated : ∀ xs sep ys, (∀ x ∈ xs, p x = false) → p sep → motive ys →
      motive (xs ++ sep :: ys)) (l : List α) : motive l := by
  have hfront : ∀ x ∈ l.takeWhile (!p ·), p x = false := fun x hx => by
    simpa using List.mem_takeWhile_imp hx
  cases hrest : l.dropWhile (!p ·) with
  | nil =>
    have hl : l.takeWhile (!p ·) = l := by
      simpa [hrest] using List.takeWhile_append_dropWhile (p := (!p ·)) (l := l)
    exact free l (hl ▸ hfront)
  | cons sep ys =>
    have hl : l.takeWhile (!p ·) ++ sep :: ys = l := by
      rw [← hrest, List.takeWhile_append_dropWhile]
    have hsep : p sep := by
      have := List.head_dropWhile_not (!p ·) (l := l) (by rw [hrest]; exact List.cons_ne_nil _ _)
      simpa [hrest] using this
    rw [← hl]
    exact separated _ sep ys hfront hsep (separators_induction free separated ys)
termination_by l.length
decreasing_by
  have := congrArg List.length hl
  simp only [List.length_append, List.length_cons] at this
  omega

theorem mem_piecesBy {w : List α} (h : w ∈ piecesBy p l) :
    w ≠ [] ∧ w <:+: l ∧ ∀ x ∈ w, p x = false := by
  induction l using separators_induction (p := p) with
  | free xs hfree =>
    rw [piecesBy_of_not hfree] at h
    split_ifs at h with hnil
    · contradiction
    · rw [List.mem_singleton.mp h]
      exact ⟨hnil, List.infix_refl xs, hfree⟩
  | separated xs sep ys hfree hsep ih =>
    rw [piecesBy_append_cons hsep, piecesBy_of_not hfree] at h
    rcases List.mem_append.mp h with h | h
    · split_ifs at h with hnil
      · contradiction
      · rw [List.mem_singleton.mp h]
        exact ⟨hnil, List.infix_append_of_infix_left (List.infix_refl xs), hfree⟩
    · obtain ⟨hne, hwithin, hnot⟩ := ih h
      exact ⟨hne, hwithin.trans ⟨xs ++ [sep], [], by simp⟩, hnot⟩

/-- Where every separator is written as one, and all else without any, pieces are written alone. -/
theorem piecesBy_flatMap {write : α → List β} (hsep : ∀ x, p x → ∃ y, write x = [y] ∧ q y)
    (hother : ∀ x, p x = false → write x ≠ [] ∧ ∀ y ∈ write x, q y = false) (l : List α) :
    piecesBy q (l.flatMap write) = (piecesBy p l).map (·.flatMap write) := by
  have hpiece (xs : List α) (hfree : ∀ x ∈ xs, p x = false) :
      piecesBy q (xs.flatMap write) = (piecesBy p xs).map (·.flatMap write) := by
    have hnot : ∀ y ∈ xs.flatMap write, q y = false := by
      intro y hy
      obtain ⟨x, hx, hy⟩ := List.mem_flatMap.mp hy
      exact (hother x (hfree x hx)).2 y hy
    rw [piecesBy_of_not hnot, piecesBy_of_not hfree]
    cases xs with
    | nil => rfl
    | cons x xs =>
      have hne : (x :: xs).flatMap write ≠ [] := by
        simp [(hother x (hfree x List.mem_cons_self)).1]
      rw [if_neg hne, if_neg (List.cons_ne_nil x xs)]
      rfl
  induction l using separators_induction (p := p) with
  | free xs hfree => exact hpiece xs hfree
  | separated xs sep ys hfree hp ih =>
    obtain ⟨y, hy, hq⟩ := hsep sep hp
    rw [List.flatMap_append, List.flatMap_cons, hy, List.singleton_append,
      piecesBy_append_cons hq, piecesBy_append_cons hp, List.map_append, hpiece xs hfree, ih]

/-- Pieces with one separator between them can be told apart again. -/
theorem piecesBy_intercalate {sep : α} (hsep : p sep) {ws : List (List α)}
    (h : ∀ w ∈ ws, w ≠ [] ∧ ∀ x ∈ w, p x = false) : piecesBy p ([sep].intercalate ws) = ws := by
  induction ws with
  | nil => rfl
  | cons w ws ih =>
    obtain ⟨⟨hne, hnot⟩, hrest⟩ := List.forall_mem_cons.mp h
    cases ws with
    | nil => rw [List.intercalate_singleton, piecesBy_of_not hnot, if_neg hne]
    | cons w' ws =>
      rw [List.intercalate_cons_cons, List.append_assoc, List.singleton_append,
        piecesBy_append_cons hsep, piecesBy_of_not hnot, if_neg hne, ih hrest]
      rfl

end Pieces

theorem words_eq_piecesBy (s : List Char) : words s = piecesBy isWhiteSpace s := by
  have hconsWord (w : List Char) (ws : List (List Char)) :
      consWord w (ws.filter (!·.isEmpty)) = (w :: ws).filter (!·.isEmpty) := by
    unfold consWord
    cases w <;> rfl
  have hleading : ∃ w ws, s.splitOnP isWhiteSpace = w :: ws ∧
      leadingWord s = (w, ws.filter (!·.isEmpty)) := by
    induction s with
    | nil => exact ⟨[], [], rfl, rfl⟩
    | cons c s ih =>
      obtain ⟨w, ws, hsplit, hword⟩ := ih
      rw [List.splitOnP_cons_eq_if_modifyHead, leadingWord, hsplit, hword]
      dsimp only
      split_ifs
      · exact ⟨[], w :: ws, rfl, by rw [hconsWord]⟩
      · exact ⟨c :: w, ws, rfl, rfl⟩
  obtain ⟨w, ws, hsplit, hword⟩ := hleading
  unfold words piecesBy
  rw [hword, hsplit]
  exact hconsWord w ws

/-! ### Texts of words -/

/-- Words with single blanks between them. -/
def joined (ws : List (List Char)) : String :=
  " ".intercalate (ws.map String.ofList)

theorem toList_joined (ws : List (List Char)) : (joined ws).toList = [' '].intercalate ws := by
  unfold joined
  rw [String.toList_intercalate, List.map_map]
  have hid : String.toList ∘ String.ofList = id := funext fun _ => String.toList_ofList
  rw [hid, List.map_id]
  rfl

/-- White space is all that texts with the same words differ in. -/
theorem joined_piecesBy_inj {p : Char → Bool} (hblank : p ' ') {s t : List Char} :
    joined (piecesBy p s) = joined (piecesBy p t) ↔ piecesBy p s = piecesBy p t := by
  constructor
  · intro h
    have hwords (s : List Char) : piecesBy p (joined (piecesBy p s)).toList = piecesBy p s := by
      rw [toList_joined]
      exact piecesBy_intercalate hblank fun w hw =>
        ⟨(mem_piecesBy hw).1, (mem_piecesBy hw).2.2⟩
    rw [← hwords s, h, hwords t]
  · exact congrArg joined

end PhpLint.Text
