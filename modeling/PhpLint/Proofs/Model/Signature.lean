import PhpLint.Model.Signature
import PhpLint.Proofs.Model.Lexeme

/-! What follows the parts of a function header, and the steps in which its parameters are read. -/
namespace PhpLint

namespace Parameter

open Lexeme (nested)

/-! ### Steps of the readings of a parameter -/

theorem element_cons (depth : Nat) (x : Lexeme) (r : List Lexeme) :
    element depth (x :: r) =
      if depth == 0 && (x.is "," || x.isCloseBracket) then []
      else x :: element (nested depth x.toToken) r := by
  rw [element]
  unfold nested
  split
  · rfl
  · split
    · rfl
    · split <;> rfl

theorem hasDefault_cons (depth : Nat) (x : Lexeme) (r : List Lexeme) :
    hasDefault depth (x :: r) =
      ((nested depth x.toToken == 0 && x.is "=") || hasDefault (nested depth x.toToken) r) := by
  rw [hasDefault]
  unfold nested
  by_cases hopen : x.isOpenBracket
  · rw [if_pos hopen, if_pos hopen, Lexeme.not_is_of_isOpenBracket hopen (by decide), Bool.and_false,
      Bool.false_or]
  rw [if_neg hopen, if_neg hopen]
  by_cases hclose : x.isCloseBracket
  · rw [if_pos hclose, if_pos hclose, Lexeme.not_is_of_isCloseBracket hclose (by decide),
      Bool.and_false, Bool.false_or]
  · rw [if_neg hclose, if_neg hclose]

/-- The bracket that opened a group of attributes counts as one of its own. -/
theorem Declared.insideHashGroup_succ (n : Nat) (x : Lexeme) :
    insideHashGroup (n + 1) x =
      if n = 0 ∧ x.isCloseBracket then none else some (nested n x.toToken + 1) := by
  have hnot := Bracket.not_open_of_isCloseBracket (t := x.toToken)
  unfold insideHashGroup nested
  by_cases hclose : x.isCloseBracket
  · rw [hnot hclose, if_neg Bool.false_ne_true, if_neg Bool.false_ne_true, if_pos hclose,
      if_pos hclose]
    cases n <;> simp [hclose]
  · by_cases hopen : x.isOpenBracket <;> simp [hclose, hopen]

end Parameter

namespace Signature

open Lexeme (Rising)

variable {x : Lexeme} {r s after : List Lexeme}

theorem optional_suffix (text : String) (s : List Lexeme) : (optional text s).2 <:+ s := by
  unfold optional
  split
  · split
    · exact List.suffix_cons _ _
    · exact List.suffix_rfl
  · exact List.suffix_rfl

theorem readName_suffix (isArrow : Bool) (s : List Lexeme) : (readName isArrow s).2 <:+ s := by
  unfold readName
  split
  · split
    · exact List.suffix_cons _ _
    · exact List.suffix_rfl
  · exact List.suffix_rfl

theorem expect_eq_some {text : String} (h : expect text s = some r) : ∃ x, s = x :: r ∧ x.is text := by
  unfold expect at h
  split at h
  · split at h
    · rename_i x r' htext
      cases h
      exact ⟨x, rfl, htext⟩
    · contradiction
  · contradiction

theorem readUse_suffix {used : List Parameter} (h : readUse s = some (used, after)) : after <:+ s := by
  unfold readUse at h
  split at h
  · split at h
    · rename_i x r _
      obtain ⟨list, hlist, h⟩ := Option.bind_eq_some_iff.mp h
      obtain ⟨rest, hrest, h⟩ := Option.bind_eq_some_iff.mp h
      cases h
      obtain ⟨y, rfl, _⟩ := expect_eq_some hlist
      exact (Lexeme.afterClosing_suffix hrest).trans
        ((List.suffix_cons y list).trans (List.suffix_cons x _))
    · cases h
      exact List.suffix_rfl
  · contradiction

theorem skipReturnType_suffix (h : skipReturnType s = some after) : after <:+ s := by
  unfold skipReturnType at h
  split at h
  · split at h
    · exact (Lexeme.skipType_suffix h).trans (List.suffix_cons _ _)
    · cases h
      exact List.suffix_rfl
  · contradiction

theorem mem_of_readName {isArrow : Bool} {y : Lexeme} (h : (readName isArrow s).1 = some y) :
    y ∈ s ∧ y.isIdentifier := by
  unfold readName at h
  split at h
  · split at h
    · rename_i hname
      cases h
      exact ⟨List.mem_cons_self, (Bool.and_eq_true_iff.mp hname).2⟩
    · contradiction
  · contradiction

/-- The parts of a header, one behind the other. -/
theorem read?_parts {isArrow : Bool} {header : Signature} (h : read? isArrow s = some header) :
    ∃ list after after' x r,
      expect "(" (readName isArrow (optional "&" s).2).2 = some list ∧
      Lexeme.afterClosing list = some after ∧
      readUse after = some (header.usedVariables, after') ∧
      skipReturnType after' = some (x :: r) ∧ body? x r = some header.body ∧
      header.bodyAt = x.index ∧ header.name = (readName isArrow (optional "&" s).2).1 ∧
      header.returnsReference = (optional "&" s).1 ∧
      header.parameters = Parameter.readList list := by
  unfold read? at h
  dsimp only at h
  obtain ⟨list, hlist, h⟩ := Option.bind_eq_some_iff.mp h
  obtain ⟨after, hafter, h⟩ := Option.bind_eq_some_iff.mp h
  obtain ⟨⟨used, after'⟩, huse, h⟩ := Option.bind_eq_some_iff.mp h
  obtain ⟨s', htype, h⟩ := Option.bind_eq_some_iff.mp h
  cases s' with
  | nil => contradiction
  | cons x r =>
    obtain ⟨body, hbody, h⟩ := Option.bind_eq_some_iff.mp h
    cases h
    exact ⟨list, after, after', x, r, hlist, hafter, huse, htype, hbody, rfl, rfl, rfl, rfl⟩

/-- The name of a header is an identifier behind the keyword. -/
theorem mem_of_name {isArrow : Bool} {header : Signature} {y : Lexeme}
    (h : read? isArrow s = some header) (hname : header.name = some y) :
    y ∈ s ∧ y.isIdentifier := by
  obtain ⟨_, _, _, _, _, _, _, _, _, _, _, hread, _⟩ := read?_parts h
  exact (mem_of_readName (hread ▸ hname)).imp_left (optional_suffix "&" s).mem

/-- The body of a header starts with a lexeme behind the keyword. -/
theorem read?_eq_some {isArrow : Bool} {header : Signature} (h : read? isArrow s = some header) :
    ∃ x r, (x :: r) <:+ s ∧ header.bodyAt = x.index ∧ body? x r = some header.body := by
  obtain ⟨list, after, after', x, r, hlist, hafter, huse, htype, hbody, hat, _⟩ := read?_parts h
  obtain ⟨y, hy, _⟩ := expect_eq_some hlist
  have hsuffix := (readName_suffix isArrow (optional "&" s).2).trans (optional_suffix "&" s)
  rw [hy] at hsuffix
  refine ⟨x, r, ?_, hat, hbody⟩
  exact (((skipReturnType_suffix htype).trans (readUse_suffix huse)).trans
    (Lexeme.afterClosing_suffix hafter)).trans ((List.suffix_cons y list).trans hsuffix)

/-- The name of a function stands behind its keyword and in front of its parameters. -/
theorem front_of_name {isArrow : Bool} {header : Signature} (h : read? isArrow s = some header)
    (hname : header.name.isSome) : ∃ front name paren r, s = front ++ name :: paren :: r ∧
      (∀ z ∈ front, z.is "&") ∧ name.isIdentifier ∧ paren.is "(" := by
  obtain ⟨list, _, _, _, _, hlist, _, _, _, _, _, hread, _⟩ := read?_parts h
  obtain ⟨front, hfront, hamps⟩ : ∃ front, s = front ++ (optional "&" s).2 ∧
      ∀ z ∈ front, z.is "&" := by
    cases s with
    | nil => exact ⟨[], rfl, nofun⟩
    | cons x r =>
      dsimp only [optional]
      split
      · rename_i hx
        exact ⟨[x], rfl, by simpa using hx⟩
      · exact ⟨[], rfl, nofun⟩
  obtain ⟨paren, hparen, htext⟩ := expect_eq_some hlist
  rw [hread] at hname
  cases hs : (optional "&" s).2 with
  | nil =>
    rw [hs] at hname
    contradiction
  | cons name r =>
    rw [hs] at hname hparen hfront
    dsimp only [readName] at hname hparen
    split at hparen
    · rename_i hword
      refine ⟨front, name, paren, list, ?_, hamps, (Bool.and_eq_true_iff.mp hword).2, htext⟩
      rw [hfront, ← hparen]
    · rename_i hword
      rw [if_neg hword] at hname
      contradiction

theorem body?_eq_expression {i : Nat} (h : body? x r = some (.expression i)) :
    x.is "=>" ∧ i = Lexeme.expressionEnd 0 x.index r := by
  unfold body? at h
  split at h
  · cases h
  · split at h
    · cases h
    · split at h
      · rename_i harrow
        cases h
        exact ⟨harrow, rfl⟩
      · contradiction

/-- A body ends with a lexeme of it or with its first one. -/
theorem le_of_body?_expression {first last i : Nat} (hrising : Rising first last (x :: r))
    (h : body? x r = some (.expression i)) : x.index ≤ i ∧ i < last := by
  have hx := hrising.between x List.mem_cons_self
  rw [(body?_eq_expression h).2]
  rcases Lexeme.expressionEnd_mem 0 x.index r with heq | ⟨y, hy, heq⟩
  · rw [heq]
    exact ⟨Nat.le_refl _, hx.2⟩
  · have := hrising.tail.between y hy
    rw [heq]
    omega

end Signature

end PhpLint
