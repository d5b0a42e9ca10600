import Mathlib
import PhpLint.Token.Scan

/-! Open tags, and the ways in which a token of code begins, each with its kind and its length. -/
namespace PhpLint.Token

open Text (isBlank isTabOrSpace)

/-! ### Open tags -/

/-- The open tag whose word has been read, by what follows the word. -/
def afterWord : List Char → Option (Kind × Nat)
  | [] => some (.openTag, 5)
  | c :: r =>
    if c == '\r' && r.head? == some '\n' then some (.openTag, 7)
    else if isTabOrSpace c || c == '\n' || c == '\r' then some (.openTag, 6)
    else none

theorem openTag?_php {a b c : Char} (hword : [a, b, c].map Char.toLower = ['p', 'h', 'p'])
    (r : List Char) : openTag? ('<' :: '?' :: a :: b :: c :: r) = afterWord r := by
  simp only [List.map_cons, List.map_nil, List.cons.injEq, and_true] at hword
  obtain ⟨ha, hb, hc⟩ := hword
  have hne : a ≠ '=' := by
    rintro rfl
    revert ha
    decide
  unfold openTag?
  split
  · rename_i heq
    simp only [List.cons.injEq] at heq
    exact absurd heq.2.2.1 hne
  · rename_i heq
    simp only [List.cons.injEq, true_and] at heq
    obtain ⟨rfl, rfl, rfl, rfl⟩ := heq
    rw [if_pos (by simp [ha, hb, hc])]
    unfold afterWord
    split
    · rfl
    · simp
    · rename_i d r' hnot
      have hcr : (d == '\r' && r'.head? == some '\n') = false := by
        rw [Bool.eq_false_iff]
        intro h
        simp only [Bool.and_eq_true, beq_iff_eq] at h
        obtain ⟨rfl, hr⟩ := h
        obtain ⟨r'', rfl⟩ := List.head?_eq_some_iff.mp hr
        exact hnot r'' rfl rfl
      simp [hcr]
  · rename_i hnot
    exact absurd rfl (hnot a b c r)

/-! ### Line comments -/

theorem lineComment_cons (n : Nat) (c : Char) (r : List Char) :
    lineComment n (c :: r) =
      if c == '\n' then n + 1
      else if c == '?' && r.head? == some '>' then n
      else lineComment (n + 1) r := by
  rw [lineComment.eq_def]
  split
  · contradiction
  · rename_i heq
    injection heq with hc
    rw [hc]
    rfl
  · rename_i heq
    injection heq with hc hr
    rw [hc, hr]
    rfl
  · rename_i hlf hclose heq
    injection heq with hc hr
    rw [← hc] at hlf hclose
    rw [← hr] at hclose ⊢
    have htag : (c == '?' && r.head? == some '>') = false := by
      rw [Bool.eq_false_iff]
      intro h
      simp only [Bool.and_eq_true, beq_iff_eq] at h
      obtain ⟨tail, rfl⟩ := List.head?_eq_some_iff.mp h.2
      exact hclose tail h.1 rfl
    rw [beq_false_of_ne hlf, htag]
    rfl

theorem lineComment_eq_add (n : Nat) (s : List Char) :
    lineComment n s = n + lineComment 0 s := by
  induction s generalizing n with
  | nil => rfl
  | cons c r ih =>
    rw [lineComment_cons, lineComment_cons 0, ih (n + 1), ih (0 + 1)]
    split_ifs <;> omega

/-! ### Heredocs -/

theorem heredocBody_eq_map (label : List Char) (n : Nat) (s : List Char) :
    heredocBody label n s = (heredocBody label 0 s).map (n + ·) := by
  induction s generalizing n with
  | nil => rfl
  | cons c r ih =>
    rw [heredocBody, heredocBody, ih (n + 1), ih (0 + 1)]
    have hshift (m : Nat) : n + 1 + m = n + (0 + 1 + m) := by omega
    split
    · cases closingLabel? label r with
      | some k => exact congrArg some (hshift k)
      | none => cases heredocBody label 0 r <;> simp [hshift]
    · cases heredocBody label 0 r <;> simp [hshift]

/-! ### Numbers -/

theorem fraction_of_ne {c : Char} (hc : c ≠ '.') (r : List Char) : fraction (c :: r) = 0 := by
  unfold fraction
  split
  · rename_i heq
    injection heq with heq
    exact absurd heq hc
  · rfl

theorem number_of_ne {c : Char} (hc : c ≠ '0') (r : List Char) :
    number (c :: r) = number.decimal (c :: r) := by
  unfold number
  split
  · rename_i heq
    injection heq with heq
    exact absurd heq hc
  · rfl

/-! ### Code -/

variable {member : Bool} {c : Char} {r : List Char} {kind : Kind} {n : Nat}

/-- A token of code whose first character `c` is followed by the text `r`. -/
inductive CodeToken (member : Bool) (c : Char) (r : List Char) : Kind → Nat → Prop
  | whitespace (hc : isBlank c) : CodeToken member c r .whitespace (run isBlank r)
  | closeTag {s : List Char} (hc : c = '?') (hr : r = '>' :: s) :
      CodeToken member c r .closeTag (1 + lineBreak s)
  | attributeMark (hc : c = '#') (hr : r.head? = some '[') : CodeToken member c r .punct 0
  | hashComment (hc : c = '#') (hr : r.head? ≠ some '[') :
      CodeToken member c r .comment (lineComment 0 r)
  | lineComment (hc : c = '/') (hr : r.head? = some '/') :
      CodeToken member c r .comment (lineComment 0 r)
  | blockComment {s : List Char} {kind : Kind} {n : Nat} (hc : c = '/') (hr : r = '*' :: s)
      (h : blockComment s = .ok (kind, n)) : CodeToken member c r kind n
  | variableName (hc : c = '$') (hr : r.head?.any isWordStart) :
      CodeToken member c r .variable (run isWordChar r)
  | nsSeparator (hc : c = '\\') : CodeToken member c r .nsSeparator 0
  | singleQuoted {n : Nat} (hc : c = '\'') (h : closeFrames 0 [.single] r = .ok n) :
      CodeToken member c r .string n
  | doubleQuoted {n : Nat} (hc : c = '"' ∨ c = '`') (h : closeFrames 0 [.quoted c] r = .ok n) :
      CodeToken member c r .string n
  | heredoc {s : List Char} {kind : Kind} {n : Nat} (hc : c = '<') (hr : r = '<' :: '<' :: s)
      (h : heredoc s = .ok (kind, n)) : CodeToken member c r kind n
  | cast {n : Nat} (hc : c = '(') (h : cast? r = some n) : CodeToken member c r .cast n
  | number (hc : c.isDigit ∨ c = '.' ∧ r.head?.any Char.isDigit) :
      CodeToken member c r .number (number (c :: r) - 1)
  | word (hc : isWordStart c) : CodeToken member c r
      (if isReservedWord (String.ofList (c :: r.take (run isWordChar r))) && !member then .keyword
        else .name) (run isWordChar r)
  | operator {kind : Kind} {n : Nat} (h : scanOperator c r = .ok (kind, n)) :
      CodeToken member c r kind n

theorem blockComment_eq_ok {s : List Char} (h : blockComment s = .ok (kind, n)) :
    (kind = .comment ∨ kind = .docComment) ∧ 3 ≤ n := by
  unfold blockComment at h
  split at h
  · contradiction
  · extract_lets isDoc at h
    split at h
    · cases h
      exact ⟨Or.inr rfl, Nat.le_add_left 3 _⟩
    · cases h
      exact ⟨Or.inl rfl, Nat.le_add_left 3 _⟩

/-- Without a label the first two characters are an operator. -/
theorem heredoc_eq_ok {s : List Char} (h : heredoc s = .ok (kind, n)) :
    kind = .heredoc ∨ kind = .operator ∧ n = 1 := by
  unfold heredoc at h
  extract_lets blanks s' quote quotes body at h
  split at h
  · cases h
    exact Or.inr ⟨rfl, rfl⟩
  · split at h
    · contradiction
    · split at h
      · cases h
        exact Or.inl rfl
      · contradiction

theorem scanOperator_eq_ok (h : scanOperator c r = .ok (kind, n)) :
    (∃ op ∈ operators, op.toList <+: c :: r ∧ kind = .operator ∧ n = op.length - 1) ∨
      c ∈ punctuation ∧ kind = .punct ∧ n = 0 := by
  unfold scanOperator at h
  split at h
  · rename_i op hop
    cases h
    have hbegin := List.find?_some (p := fun op : String => op.toList.isPrefixOf (c :: r)) hop
    exact Or.inl ⟨op, List.mem_of_find?_eq_some hop, List.isPrefixOf_iff_prefix.mp hbegin, rfl, rfl⟩
  · split at h
    · rename_i hpunct
      cases h
      exact Or.inr ⟨List.contains_iff_mem.mp hpunct, rfl, rfl⟩
    · contradiction

theorem codeToken_of_scanCode (h : scanCode member c r = .ok (kind, n)) :
    CodeToken member c r kind n := by
  unfold scanCode at h
  dsimp only at h
  by_cases hblank : isBlank c
  · rw [if_pos hblank] at h
    cases h
    exact .whitespace hblank
  rw [if_neg hblank] at h
  by_cases hclose : c == '?' && r.head? == some '>'
  · rw [if_pos hclose] at h
    cases h
    obtain ⟨hc, hr⟩ := Bool.and_eq_true_iff.mp hclose
    obtain ⟨s, rfl⟩ := List.head?_eq_some_iff.mp (eq_of_beq hr)
    exact .closeTag (eq_of_beq hc) rfl
  rw [if_neg hclose] at h
  by_cases hhash : c == '#'
  · rw [if_pos hhash] at h
    by_cases hr : r.head? == some '['
    · rw [if_pos hr] at h
      cases h
      exact .attributeMark (eq_of_beq hhash) (eq_of_beq hr)
    · rw [if_neg hr] at h
      cases h
      exact .hashComment (eq_of_beq hhash) (by simpa using hr)
  rw [if_neg hhash] at h
  by_cases hline : c == '/' && r.head? == some '/'
  · rw [if_pos hline] at h
    cases h
    obtain ⟨hc, hr⟩ := Bool.and_eq_true_iff.mp hline
    exact .lineComment (eq_of_beq hc) (eq_of_beq hr)
  rw [if_neg hline] at h
  by_cases hblock : c == '/' && r.head? == some '*'
  · rw [if_pos hblock] at h
    obtain ⟨hc, hr⟩ := Bool.and_eq_true_iff.mp hblock
    obtain ⟨s, rfl⟩ := List.head?_eq_some_iff.mp (eq_of_beq hr)
    exact .blockComment (eq_of_beq hc) rfl h
  rw [if_neg hblock] at h
  by_cases hvariable : c == '$' && r.head?.any isWordStart
  · rw [if_pos hvariable] at h
    cases h
    obtain ⟨hc, hr⟩ := Bool.and_eq_true_iff.mp hvariable
    exact .variableName (eq_of_beq hc) hr
  rw [if_neg hvariable] at h
  by_cases hseparator : c == '\\'
  · rw [if_pos hseparator] at h
    cases h
    exact .nsSeparator (eq_of_beq hseparator)
  rw [if_neg hseparator] at h
  by_cases hsingle : c == '\''
  · rw [if_pos hsingle] at h
    cases hframes : closeFrames 0 [.single] r <;> rw [hframes] at h <;> cases h
    exact .singleQuoted (eq_of_beq hsingle) hframes
  rw [if_neg hsingle] at h
  by_cases hdouble : c == '"' || c == '`'
  · rw [if_pos hdouble] at h
    cases hframes : closeFrames 0 [.quoted c] r <;> rw [hframes] at h <;> cases h
    exact .doubleQuoted (by simpa using hdouble) hframes
  rw [if_neg hdouble] at h
  by_cases hshift : ['<', '<', '<'].isPrefixOf (c :: r)
  · rw [if_pos hshift] at h
    obtain ⟨s, hs⟩ := List.isPrefixOf_iff_prefix.mp hshift
    rw [List.cons_append, List.cons.injEq] at hs
    obtain ⟨hc, rfl⟩ := hs
    exact .heredoc hc.symm rfl h
  rw [if_neg hshift] at h
  by_cases hcast : ∃ n, c = '(' ∧ cast? r = some n
  · obtain ⟨m, rfl, hm⟩ := hcast
    rw [if_pos (by decide), hm] at h
    cases h
    exact .cast rfl hm
  have hnone : (if c == '(' then cast? r else none) = none := by
    split
    · rename_i hc
      rw [Option.eq_none_iff_forall_ne_some]
      intro m hm
      exact hcast ⟨m, eq_of_beq hc, hm⟩
    · rfl
  rw [hnone] at h
  dsimp only at h
  by_cases hnumber : c.isDigit || (c == '.' && r.head?.any Char.isDigit)
  · rw [if_pos hnumber] at h
    cases h
    exact .number (by simpa using hnumber)
  rw [if_neg hnumber] at h
  by_cases hword : isWordStart c
  · rw [if_pos hword] at h
    cases h
    exact .word hword
  · rw [if_neg hword] at h
    exact .operator h

end PhpLint.Token
