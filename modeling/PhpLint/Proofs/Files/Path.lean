import Mathlib
import PhpLint.Files.Path
import PhpLint.Proofs.Text.Pieces

/-! What becomes of a path when a name is put behind it. -/
namespace PhpLint.Path

/-- Whether a piece of a path names an entry of a directory. -/
def IsName (piece : String) : Prop :=
  '/' ∉ piece.toList ∧ ¬ isIdle piece ∧ piece ≠ ".."

instance : DecidablePred IsName := fun piece =>
  inferInstanceAs (Decidable ('/' ∉ piece.toList ∧ ¬ isIdle piece ∧ piece ≠ ".."))

variable {path base name name' : String}

theorem IsName.isAbsolute_eq_false (h : IsName name) : isAbsolute name = false := by
  unfold isAbsolute
  rw [beq_eq_false_iff_ne]
  exact fun hhead => h.1 (List.mem_of_mem_head? hhead)

theorem isAbsolute_append (h : base ≠ "") (rest : String) :
    isAbsolute (base ++ rest) = isAbsolute base := by
  have hne : base.toList ≠ [] := by simpa using h
  unfold isAbsolute
  rw [String.toList_append, List.head?_append_of_ne_nil _ hne]

theorem IsName.toList_ne_nil (h : IsName name) : name.toList ≠ [] := by
  intro hnil
  have hempty : name = "" := String.toList_inj.mp hnil
  exact h.2.1 (by rw [hempty]; rfl)

/-- A piece with another character than points is a name. -/
theorem isName_of_mem (h : '/' ∉ name.toList) {c : Char} (hc : c ∈ name.toList) (hpoint : c ≠ '.') :
    IsName name := by
  refine ⟨h, fun hidle => ?_, ?_⟩
  · unfold isIdle at hidle
    rw [Bool.or_eq_true, beq_iff_eq, beq_iff_eq] at hidle
    rcases hidle with rfl | rfl
    · exact absurd hc List.not_mem_nil
    · exact hpoint (List.mem_singleton.mp hc)
  · rintro rfl
    exact hpoint (by simpa using hc)

theorem pieces_of_not_mem (h : '/' ∉ name.toList) : pieces name = [name] := by
  rw [pieces, Text.splitAt_of_not_mem h, List.map_singleton, String.ofList_toList]

theorem pieces_append_slash (base name : String) :
    pieces (base ++ "/" ++ name) = pieces base ++ pieces name := by
  have htext : (base ++ "/" ++ name).toList = base.toList ++ '/' :: name.toList := by simp
  rw [pieces, htext, Text.splitAt_append, List.map_append]
  rfl

theorem pieces_concat_slash (base : String) : pieces (base ++ "/") = pieces base ++ [""] := by
  have hslash := pieces_append_slash base ""
  rw [String.append_empty] at hslash
  exact hslash

/-- A relative path is put behind one that is empty, that ends with a slash, or that is given one. -/
theorem join_cases_of_relative (h : isAbsolute path = false) (base : String) :
    (base = "" ∧ join base path = path) ∨
      (∃ front, base = front ++ "/" ∧ join base path = front ++ "/" ++ path) ∨
      base ≠ "" ∧ join base path = base ++ "/" ++ path := by
  unfold join
  rw [h, Bool.false_or]
  by_cases hempty : base = ""
  · exact Or.inl ⟨hempty, if_pos (by simp [hempty])⟩
  have hne : ¬ (base.isEmpty = true) := by simpa using hempty
  rw [if_neg hne]
  split_ifs with hlast
  · obtain ⟨front, hfront⟩ := List.getLast?_eq_some_iff.mp (eq_of_beq hlast)
    have hbase : base = String.ofList front ++ "/" := by
      rw [← String.toList_inj, hfront]
      simp
    exact Or.inr (Or.inl ⟨String.ofList front, hbase, by rw [hbase]⟩)
  · exact Or.inr (Or.inr ⟨hempty, rfl⟩)

theorem join_cases (h : IsName name) (base : String) :
    (base = "" ∧ join base name = name) ∨
      (∃ front, base = front ++ "/" ∧ join base name = front ++ "/" ++ name) ∨
      base ≠ "" ∧ join base name = base ++ "/" ++ name :=
  join_cases_of_relative h.isAbsolute_eq_false base

theorem exists_join_eq_append (h : IsName name) (hne : base ≠ "") :
    ∃ rest, join base name = base ++ rest := by
  obtain ⟨rfl, _⟩ | ⟨front, rfl, hjoin⟩ | ⟨_, hjoin⟩ := join_cases h base
  · contradiction
  · exact ⟨name, hjoin⟩
  · exact ⟨"/" ++ name, by rw [hjoin, String.append_assoc]⟩

theorem join_eq_append_name (h : IsName name) (base : String) :
    ∃ front, join base name = front ++ name := by
  obtain ⟨_, hjoin⟩ | ⟨front, _, hjoin⟩ | ⟨_, hjoin⟩ := join_cases h base
  · exact ⟨"", by rw [hjoin, String.empty_append]⟩
  · exact ⟨front ++ "/", hjoin⟩
  · exact ⟨base ++ "/", hjoin⟩

theorem join_ne_empty (h : IsName name) (base : String) : join base name ≠ "" := by
  obtain ⟨front, hjoin⟩ := join_eq_append_name h base
  intro hempty
  rw [hjoin, ← String.toList_inj, String.toList_append] at hempty
  exact h.toList_ne_nil (List.append_eq_nil_iff.mp hempty).2

theorem mem_join (h : IsName name) {c : Char} (hc : c ∈ (join base name).toList) :
    c ∈ base.toList ∨ c = '/' ∨ c ∈ name.toList := by
  have happend {front : String} (hc : c ∈ (front ++ "/" ++ name).toList) :
      c ∈ front.toList ∨ c = '/' ∨ c ∈ name.toList := by
    simpa [or_assoc] using hc
  obtain ⟨_, hjoin⟩ | ⟨front, rfl, hjoin⟩ | ⟨_, hjoin⟩ := join_cases h base
  · exact Or.inr (Or.inr (hjoin ▸ hc))
  · rw [String.toList_append, List.mem_append, or_assoc]
    rcases happend (hjoin ▸ hc) with hc | hc | hc
    · exact Or.inl hc
    · exact Or.inr (Or.inr (Or.inl hc))
    · exact Or.inr (Or.inr (Or.inr hc))
  · exact happend (hjoin ▸ hc)

theorem isAbsolute_join (h : IsName name) (base : String) :
    isAbsolute (join base name) = isAbsolute base := by
  obtain ⟨rfl, hjoin⟩ | ⟨front, rfl, hjoin⟩ | ⟨hne, hjoin⟩ := join_cases h base
  · rw [hjoin, h.isAbsolute_eq_false]
    rfl
  · rw [hjoin, isAbsolute_append (by simp)]
  · rw [hjoin, String.append_assoc, isAbsolute_append hne]

theorem pieces_join (h : IsName name) (base : String) :
    ∃ front, pieces (join base name) = front ++ [name] ∧
      (pieces base = front ∨ pieces base = front ++ [""]) := by
  obtain ⟨rfl, hjoin⟩ | ⟨front, rfl, hjoin⟩ | ⟨_, hjoin⟩ := join_cases h base
  · exact ⟨[], by rw [hjoin, pieces_of_not_mem h.1]; rfl, Or.inr rfl⟩
  · refine ⟨pieces front, ?_, Or.inr ?_⟩
    · rw [hjoin, pieces_append_slash, pieces_of_not_mem h.1]
    · exact pieces_concat_slash front
  · refine ⟨pieces base, ?_, Or.inl rfl⟩
    rw [hjoin, pieces_append_slash, pieces_of_not_mem h.1]

/-- Whether a path is another one with a name behind it, and what means nothing in between. -/
structure Extends (path base name : String) : Prop where
  isName : IsName name
  isAbsolute_eq : isAbsolute path = isAbsolute base
  begins : ∃ rest, path = base ++ rest
  pieces_eq : ∃ front idle idle', pieces path = front ++ idle ++ [name] ∧
    pieces base = front ++ idle' ∧ (∀ piece ∈ idle, isIdle piece) ∧ ∀ piece ∈ idle', isIdle piece

theorem extends_join (h : IsName name) (base : String) : Extends (join base name) base name where
  isName := h
  isAbsolute_eq := isAbsolute_join h base
  begins := by
    by_cases hne : base = ""
    · exact ⟨join base name, by rw [hne, String.empty_append]⟩
    · exact exists_join_eq_append h hne
  pieces_eq := by
    obtain ⟨front, hjoin, hbase | hbase⟩ := pieces_join h base
    · exact ⟨front, [], [], by rw [List.append_nil, hjoin], by rw [List.append_nil, hbase],
        nofun, nofun⟩
    · refine ⟨front, [], [""], by rw [List.append_nil, hjoin], hbase, nofun, fun piece hpiece => ?_⟩
      rw [List.mem_singleton.mp hpiece]
      rfl

theorem Extends.exists_pieces (h : Extends path base name) :
    ∃ front, pieces path = front ++ [name] := by
  obtain ⟨front, idle, _, hpath, _⟩ := h.pieces_eq
  exact ⟨front ++ idle, hpath⟩

theorem Extends.ne_empty (h : Extends path base name) : path ≠ "" := by
  rintro rfl
  obtain ⟨front, hpath⟩ := h.exists_pieces
  have hempty : pieces "" = [] ++ [""] := by decide
  have hname := (List.append_inj' (hempty.symm.trans hpath) rfl).2
  exact h.isName.2.1 (by rw [← List.singleton_inj.mp hname]; rfl)

/-- A path with a name behind it does not end with a slash. -/
theorem Extends.getLast?_ne (h : Extends path base name) : path.toList.getLast? ≠ some '/' := by
  intro hlast
  obtain ⟨s, hs⟩ := List.getLast?_eq_some_iff.mp hlast
  have hpath : path = String.ofList s ++ "/" ++ "" := by
    rw [← String.toList_inj, hs]
    simp
  obtain ⟨front, hpieces⟩ := h.exists_pieces
  have hempty : pieces "" = [""] := by decide
  rw [hpath, pieces_append_slash, hempty] at hpieces
  have hname := (List.append_inj' hpieces rfl).2
  exact h.isName.2.1 (by rw [← List.singleton_inj.mp hname]; rfl)

end PhpLint.Path
