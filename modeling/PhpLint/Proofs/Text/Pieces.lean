import Mathlib
import PhpLint.Text.Ascii
import PhpLint.Text.WhiteSpace

/-! The pieces of a text between separators, and what may be cut off around them. -/
namespace PhpLint.Text

theorem dropWhile_of_head? {p : Char → Bool} {s : List Char}
    (h : ∀ c ∈ s.head?, p c = false) : s.dropWhile p = s := by
  cases s with
  | nil => rfl
  | cons c s => rw [List.dropWhile_cons, h c rfl]; rfl

/-- Nothing is cut off where both ends are to stay. -/
theorem trimBy_of_ends {p : Char → Bool} {s : List Char} (hhead : ∀ c ∈ s.head?, p c = false)
    (hlast : ∀ c ∈ s.getLast?, p c = false) : trimBy p s = s := by
  unfold trimBy
  rw [dropWhile_of_head? hhead, dropWhile_of_head? (by rwa [List.head?_reverse]),
    List.reverse_reverse]

theorem trimBy_of_not {p : Char → Bool} {s : List Char} (h : ∀ c ∈ s, p c = false) :
    trimBy p s = s :=
  trimBy_of_ends (fun c hc => h c (List.mem_of_mem_head? hc))
    fun c hc => h c (List.mem_of_mem_getLast? hc)

theorem trimBy_cons {p : Char → Bool} {c : Char} (h : p c = true) (s : List Char) :
    trimBy p (c :: s) = trimBy p s := by
  unfold trimBy
  rw [List.dropWhile_cons_of_pos h]

theorem trimBy_concat {p : Char → Bool} {c : Char} (h : p c = true) (s : List Char) :
    trimBy p (s ++ [c]) = trimBy p s := by
  unfold trimBy
  rw [List.dropWhile_append]
  split_ifs with hempty
  · rw [List.isEmpty_iff] at hempty
    rw [hempty, List.dropWhile_cons_of_pos h]
    rfl
  · rw [List.reverse_append, List.reverse_singleton, List.singleton_append,
      List.dropWhile_cons_of_pos h]

/-- What is cut off behind a text, up to a character that is to stay. -/
theorem dropWhile_reverse_append {p : Char → Bool} {s t : List Char}
    (hs : ∀ c ∈ s.getLast?, p c = false) (ht : ∀ c ∈ t, p c = true) :
    ((s ++ t).reverse.dropWhile p).reverse = s := by
  rw [List.reverse_append, List.dropWhile_append_of_pos fun c hc => ht c (List.mem_reverse.mp hc),
    dropWhile_of_head? (by rwa [List.head?_reverse]), List.reverse_reverse]

theorem exists_append_dropWhile_reverse (p : Char → Bool) (s : List Char) :
    ∃ t, s = (s.reverse.dropWhile p).reverse ++ t ∧ (∀ c ∈ t, p c = true) ∧
      ∀ c ∈ ((s.reverse.dropWhile p).reverse).getLast?, p c = false := by
  refine ⟨(s.reverse.takeWhile p).reverse, ?_, ?_, ?_⟩
  · rw [← List.reverse_append, List.takeWhile_append_dropWhile, List.reverse_reverse]
  · intro c hc
    exact List.mem_takeWhile_imp (List.mem_reverse.mp hc)
  · intro c hc
    rw [List.getLast?_reverse] at hc
    have hnot := List.head?_dropWhile_not p s.reverse
    rw [Option.mem_def] at hc
    rw [hc] at hnot
    simpa using hnot

theorem trimBy_append {p : Char → Bool} {before body after : List Char}
    (hblank : ∀ c ∈ before ++ after, p c = true) (hfirst : ∀ c ∈ body.head?, p c = false)
    (hlast : ∀ c ∈ body.getLast?, p c = false) : trimBy p (before ++ body ++ after) = body := by
  rw [List.forall_mem_append] at hblank
  unfold trimBy
  rw [List.append_assoc, List.dropWhile_append_of_pos hblank.1]
  cases body with
  | nil =>
    have hempty : ([] ++ after).dropWhile p = [] := List.dropWhile_eq_nil_iff.mpr hblank.2
    rw [hempty]
    rfl
  | cons c body =>
    rw [List.cons_append, List.dropWhile_cons_of_neg (by simp [hfirst c rfl]), ← List.cons_append,
      dropWhile_reverse_append hlast hblank.2]

theorem exists_append_trimBy (p : Char → Bool) (s : List Char) :
    ∃ before after, s = before ++ trimBy p s ++ after ∧ (∀ c ∈ before ++ after, p c = true) ∧
      (∀ c ∈ (trimBy p s).head?, p c = false) ∧ ∀ c ∈ (trimBy p s).getLast?, p c = false := by
  obtain ⟨after, heq, hafter, hlast⟩ := exists_append_dropWhile_reverse p (s.dropWhile p)
  refine ⟨s.takeWhile p, after, ?_, ?_, ?_, hlast⟩
  · unfold trimBy
    rw [List.append_assoc, ← heq, List.takeWhile_append_dropWhile]
  · rw [List.forall_mem_append]
    exact ⟨fun c hc => List.mem_takeWhile_imp hc, hafter⟩
  · intro c hc
    have hhead : (s.dropWhile p).head? = some c := by
      rw [heq, List.head?_append]
      exact Option.or_eq_some_iff.mpr (.inl hc)
    have hnot := List.head?_dropWhile_not p s
    rw [hhead] at hnot
    simpa using hnot

@[simp] theorem toList_trim (s : String) : (trim s).toList = trimBy isWhiteSpace s.toList := by
  simp [trim]

/-- White space is cut off at once. -/
@[simp] theorem trim_trim (s : String) : trim (trim s) = trim s := by
  obtain ⟨-, -, -, -, hfirst, hlast⟩ := exists_append_trimBy isWhiteSpace s.toList
  rw [← String.toList_inj, toList_trim, toList_trim, trimBy_of_ends hfirst hlast]

theorem splitAt_ne_nil (c : Char) (s : List Char) : splitAt c s ≠ [] := by
  cases s with
  | nil => simp [splitAt]
  | cons d s =>
    rw [splitAt]
    split_ifs
    · simp
    · split <;> simp

/-- Behind a separator the pieces begin anew. -/
theorem splitAt_append (c : Char) (s r : List Char) :
    splitAt c (s ++ c :: r) = splitAt c s ++ splitAt c r := by
  induction s with
  | nil => simp [splitAt]
  | cons d s ih =>
    rw [List.cons_append, splitAt, splitAt, ih]
    split_ifs
    · rfl
    · cases hs : splitAt c s with
      | nil => exact absurd hs (splitAt_ne_nil c s)
      | cons w ws => rfl

theorem intercalate_splitAt (c : Char) (s : List Char) : [c].intercalate (splitAt c s) = s := by
  induction s with
  | nil => simp [splitAt]
  | cons d s ih =>
    obtain ⟨w, ws, hws⟩ := List.exists_cons_of_ne_nil (splitAt_ne_nil c s)
    rw [hws] at ih
    rw [splitAt, hws]
    split_ifs with h
    · rw [List.intercalate_cons_cons, ih, eq_of_beq h]
      rfl
    · cases ws with
      | nil => simpa using ih
      | cons w' ws =>
        rw [List.intercalate_cons_cons] at ih ⊢
        rw [← ih]
        rfl

theorem splitAt_of_not_mem {c : Char} {w : List Char} (h : c ∉ w) : splitAt c w = [w] := by
  induction w with
  | nil => rfl
  | cons d w ih =>
    rw [List.mem_cons, not_or] at h
    have hne : (d == c) = false := by
      rw [beq_eq_false_iff_ne]
      exact fun heq => h.1 heq.symm
    rw [splitAt, hne, ih h.2]
    rfl

theorem mem_of_mem_splitAt {c d : Char} {s w : List Char} (h : w ∈ splitAt c s) (hd : d ∈ w) :
    d ∈ s ∧ d ≠ c := by
  induction s generalizing w with
  | nil =>
    rw [splitAt, List.mem_singleton] at h
    rw [h] at hd
    contradiction
  | cons e s ih =>
    rw [splitAt] at h
    split_ifs at h with he
    · rcases List.mem_cons.mp h with rfl | h
      · contradiction
      · exact (ih h hd).imp_left (List.mem_cons_of_mem e)
    · obtain ⟨v, vs, hs⟩ := List.exists_cons_of_ne_nil (splitAt_ne_nil c s)
      rw [hs] at h ih
      rcases List.mem_cons.mp h with rfl | h
      · rcases List.mem_cons.mp hd with rfl | hd
        · exact ⟨List.mem_cons_self, by simpa using he⟩
        · exact (ih List.mem_cons_self hd).imp_left (List.mem_cons_of_mem e)
      · exact (ih (List.mem_cons_of_mem v h) hd).imp_left (List.mem_cons_of_mem e)

/-- What is put behind a text without a separator goes on in its last piece. -/
theorem splitAt_append_of_not_mem {c : Char} {s r : List Char} (h : c ∉ r) :
    ∃ front last, splitAt c s = front ++ [last] ∧ splitAt c (s ++ r) = front ++ [last ++ r] := by
  induction s with
  | nil => exact ⟨[], [], rfl, splitAt_of_not_mem h⟩
  | cons d s ih =>
    obtain ⟨front, last, hs, happend⟩ := ih
    rw [List.cons_append, splitAt, splitAt, happend, hs]
    split_ifs
    · exact ⟨[] :: front, last, rfl, rfl⟩
    · cases front with
      | nil => exact ⟨[], d :: last, rfl, rfl⟩
      | cons w front => exact ⟨(d :: w) :: front, last, rfl, rfl⟩

/-- White space in front of the first piece does not count. -/
private theorem map_trim_splitAt_cons {c d : Char} (hne : (d == c) = false) {p : Char → Bool}
    (hd : p d = true) (r : List Char) :
    (splitAt c (d :: r)).map (trimBy p) = (splitAt c r).map (trimBy p) := by
  rw [splitAt, hne]
  cases hr : splitAt c r with
  | nil => exact absurd hr (splitAt_ne_nil c r)
  | cons w ws =>
    change trimBy p (d :: w) :: ws.map (trimBy p) = _
    rw [trimBy_cons hd, List.map_cons]

/-- Pieces that neither hold a bar nor white space, with a bar and two blanks between them. -/
theorem map_trim_splitAt_intercalate {ws : List (List Char)} (hne : ws ≠ [])
    (h : ∀ w ∈ ws, ∀ c ∈ w, isWhiteSpace c = false ∧ c ≠ '|') :
    (splitAt '|' ([' ', '|', ' '].intercalate ws)).map (trimBy isWhiteSpace) = ws := by
  induction ws with
  | nil => contradiction
  | cons w ws ih =>
    have hw (c : Char) (hc : c ∈ w) := h w List.mem_cons_self c hc
    have hbar : '|' ∉ w := fun hmem => (hw '|' hmem).2 rfl
    have htrim : trimBy isWhiteSpace w = w := trimBy_of_not fun c hc => (hw c hc).1
    cases ws with
    | nil => rw [List.intercalate_singleton, splitAt_of_not_mem hbar, List.map_singleton, htrim]
    | cons w' ws =>
      have hblank : '|' ∉ w ++ [' '] := by simpa using hbar
      have hsplit : [' ', '|', ' '].intercalate (w :: w' :: ws) =
          (w ++ [' ']) ++ '|' :: ' ' :: [' ', '|', ' '].intercalate (w' :: ws) := by
        rw [List.intercalate_cons_cons]
        simp
      rw [hsplit, splitAt_append, splitAt_of_not_mem hblank, List.singleton_append, List.map_cons,
        trimBy_concat (by decide), htrim,
        map_trim_splitAt_cons (by decide) (by decide),
        ih (by simp) fun w hw => h w (List.mem_cons_of_mem _ hw)]

/-- White space around neither of some pieces is none around all of them. -/
theorem trimBy_intercalate {p : Char → Bool} (sep : List Char) {ws : List (List Char)}
    (h : ∀ w ∈ ws, w ≠ [] ∧ ∀ c ∈ w, p c = false) :
    trimBy p (sep.intercalate ws) = sep.intercalate ws := by
  apply trimBy_of_ends
  · cases ws with
    | nil => intro c hc; cases hc
    | cons w ws =>
      obtain ⟨hne, hw⟩ := h w List.mem_cons_self
      intro c hc
      cases ws with
      | nil =>
        rw [List.intercalate_singleton] at hc
        exact hw c (List.mem_of_mem_head? hc)
      | cons w' ws =>
        rw [List.intercalate_cons_cons, List.append_assoc, List.head?_append,
          Option.or_of_isSome (by rwa [List.isSome_head?])] at hc
        exact hw c (List.mem_of_mem_head? hc)
  · induction ws with
    | nil => intro c hc; cases hc
    | cons w ws ih =>
      cases ws with
      | nil =>
        rw [List.intercalate_singleton]
        exact fun c hc => (h w List.mem_cons_self).2 c (List.mem_of_mem_getLast? hc)
      | cons w' ws =>
        have hrest := ih fun w hw => h w (List.mem_cons_of_mem _ hw)
        have hne : sep.intercalate (w' :: ws) ≠ [] := by
          have hw' := (h w' (List.mem_cons_of_mem _ List.mem_cons_self)).1
          cases ws with
          | nil => rwa [List.intercalate_singleton]
          | cons => simp [List.intercalate_cons_cons, hw']
        rw [List.intercalate_cons_cons, List.getLast?_append, List.getLast?_eq_some_getLast hne,
          Option.some_or, ← List.getLast?_eq_some_getLast]
        exact hrest

end PhpLint.Text
