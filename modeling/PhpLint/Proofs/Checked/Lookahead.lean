import PhpLint.Proofs.Checked.Basic
import PhpLint.Proofs.Model.Lexeme

/-!
Reading ahead by positions in the token list. Every access to a token, every range and every
counter of brackets is checked; the answers are those of the readings over lexemes.
-/
namespace PhpLint.Checked

open PhpLint.Bracket (Indexed)
open Lexeme

variable {ε : Type} {ts : List Token} {x : Lexeme} {r s : List Lexeme} {k : Nat}

/-! ### Readings by positions -/

/-- The first token with syntax from token `i` on. -/
def significant (ts : List Token) (i : Nat) : Option Nat :=
  ((ts.drop i).find? (!·.isSpace)).map (·.index)

/-- The next token with syntax. -/
def next (ts : List Token) (i : Nat) : Option Nat :=
  significant ts (i + 1)

/-- The last token with syntax before token `i`. -/
def previous (ts : List Token) (i : Nat) : Checked ε (Option Nat) := do
  let before ← slice ts 0 i
  return (before.reverse.find? (!·.isSpace)).map (·.index)

/-- Whether the next token with syntax is of a sort. -/
def followedBy (ts : List Token) (i : Nat) (p : Token → Bool) : Checked ε Bool := do
  match next ts i with
  | none => return false
  | some j =>
    let t ← present ts[j]?
    return p t

/-- Whether the last token with syntax before a position is of a sort. -/
def precededBy (ts : List Token) (i : Nat) (p : Token → Bool) : Checked ε Bool := do
  match ← previous ts i with
  | none => return false
  | some j =>
    let t ← present ts[j]?
    return p t

def closingFrom (depth : Nat) : List Token → Checked ε (Option Nat)
  | [] => return none
  | t :: ts => do
    if t.isOpenBracket then closingFrom (depth + 1) ts
    else if t.isCloseBracket then
      let depth ← sub depth 1
      if depth == 0 then return some t.index else closingFrom depth ts
    else closingFrom depth ts

/-- The bracket that closes the one at a position. -/
def matching (ts : List Token) (opening : Nat) : Checked ε (Option Nat) := do
  closingFrom 0 (← sliceFrom ts opening)

/-- The name at a position, and the position behind it. -/
def nameAt (ts : List Token) (k : Nat) : String × Nat :=
  match _h : ts[k]? with
  | some t =>
    if t.isIdentifier || t.kind == .nsSeparator then
      let (name, after) := nameAt ts (k + 1)
      (t.text ++ name, after)
    else ("", k)
  | none => ("", k)
termination_by ts.length - k
decreasing_by
  have := (List.getElem?_eq_some_iff.mp _h).1
  omega

/-- The names with commas between them at a position, and the token with syntax behind them. -/
def namesAt (ts : List Token) (k : Nat) : Checked ε (List String × Nat) :=
  if _h : k < ts.length then do
    let (name, after) := nameAt ts k
    if name.isEmpty then return ([], k)
    else
      match significant ts after with
      | none => return ([name], ts.length)
      | some j =>
        let t ← present ts[j]?
        if t.is "," then
          match next ts j with
          | none => return ([name], ts.length)
          | some n =>
            advance k n fun _ => do
              let (names, after) ← namesAt ts n
              return (name :: names, after)
        else return ([name], j)
  else return ([], k)
termination_by ts.length - k

/-- The number of open brackets after one more token. -/
def nest (depth : Nat) (t : Token) : Checked ε Nat :=
  if t.isOpenBracket then return depth + 1
  else if t.isCloseBracket then sub depth 1
  else return depth

/-- The positions of the elements of a list; `first` is that of the element in progress. -/
def elementsFrom (separator terminator : String) (first : Option Nat) (depth : Nat) :
    List Token → Checked ε (List Nat)
  | [] => return first.toList
  | t :: ts => do
    if depth == 0 && (t.is terminator || (t.isCloseBracket && !t.is separator)) then
      return first.toList
    else if depth == 0 && t.is separator then
      return first.toList ++ (← elementsFrom separator terminator none depth ts)
    else
      let depth ← nest depth t
      let first := if first.isNone && !t.isSpace then some t.index else first
      elementsFrom separator terminator first depth ts

def elements (ts : List Token) (start : Nat) (separator terminator : String) :
    Checked ε (List Nat) :=
  elementsFrom separator terminator none 0 (ts.drop start)

/-- The token at which a return type ends; `k` is the one after its colon, or a later one. -/
def typeEnd (ts : List Token) (k : Nat) : Checked ε (Option Nat) :=
  if _h : k < ts.length then do
    let t ← present ts[k]?
    if t.is "\x7b" || t.is "=>" || t.isTerminator then return some k
    else
      match ← if t.is "(" then matching ts k else pure (some k) with
      | none => return none
      | some last =>
        match next ts last with
        | none => return none
        | some n => advance k n fun _ => typeEnd ts n
  else trap .range
termination_by ts.length - k

def arrowEndFrom (depth last : Nat) : List Token → Checked ε Nat
  | [] => return last
  | t :: ts => do
    if t.isSpace then arrowEndFrom depth last ts
    else if depth == 0 && (t.is ";" || t.is "," || t.isTerminator || t.isCloseBracket) then
      return last
    else
      let depth ← nest depth t
      arrowEndFrom depth t.index ts

/-- The last token of the body after an arrow. -/
def arrowEnd (ts : List Token) (arrow : Nat) : Checked ε Nat := do
  arrowEndFrom 0 arrow (← sliceFrom ts (arrow + 1))

/-! ### Neighbours -/

theorem significant_eq (ts : List Token) (k : Nat) : significant ts k = front (ahead ts k) := by
  have hfind : (ts.drop k).find? (!·.isSpace) = (ahead ts k).head?.map (·.toToken) := by
    rw [← List.head?_filter, ← map_toToken_ofTokens (endsJoined (ts.take k)), List.head?_map]
    rfl
  unfold significant front
  rw [hfind, Option.map_map]
  rfl

theorem next_of_heads (h : Heads ts x r) : next ts x.index = front r := by
  unfold next
  rw [significant_eq, h.after]

theorem previous_eq (h : k ≤ ts.length) :
    (previous ts k : Checked ε (Option Nat)) = .ok (front (behind ts k)) := by
  have hfind : (ts.take k).reverse.find? (!·.isSpace) =
      (behind ts k).head?.map (·.toToken) := by
    unfold behind
    rw [← List.head?_filter, List.filter_reverse, ← map_toToken_ofTokens false, ← List.map_reverse,
      List.head?_map]
  unfold previous front
  rw [slice_eq_ok (Nat.zero_le _) h, ok_bind, List.drop_zero, hfind, Option.map_map]
  rfl

theorem present_of_heads (h : Heads ts x r) :
    (present ts[x.index]? : Checked ε Token) = .ok x.toToken := by
  rw [h.token, present_some]

theorem followedBy_eq (hindexed : Indexed ts) (i : Nat) (p : Token → Bool) :
    (followedBy ts i p : Checked ε Bool) =
      .ok ((ahead ts (i + 1)).head?.any fun (x : Lexeme) => p x.toToken) := by
  unfold followedBy next
  rw [significant_eq]
  cases hahead : ahead ts (i + 1) with
  | nil => rfl
  | cons x r =>
    obtain ⟨-, hx⟩ := heads_of_ahead hindexed hahead
    dsimp only [front, List.head?_cons, Option.map_some]
    rw [present_of_heads hx]
    rfl

theorem precededBy_eq (hindexed : Indexed ts) {i : Nat} (hi : i ≤ ts.length) (p : Token → Bool) :
    (precededBy ts i p : Checked ε Bool) =
      .ok ((behind ts i).head?.any fun (x : Lexeme) => p x.toToken) := by
  unfold precededBy
  rw [previous_eq hi, ok_bind]
  cases hbehind : behind ts i with
  | nil => rfl
  | cons x r =>
    dsimp only [front, List.head?_cons, Option.map_some]
    rw [getElem?_of_behind hindexed hbehind]
    rfl

theorem sliceFrom_of_heads (h : Heads ts x r) :
    (sliceFrom ts x.index : Checked ε (List Token)) =
      .ok (x.toToken :: ts.drop (x.index + 1)) := by
  obtain ⟨hlt, hget⟩ := List.getElem?_eq_some_iff.mp h.token
  rw [sliceFrom_eq_ok (Nat.le_of_lt hlt), List.drop_eq_getElem_cons hlt, hget]

/-! ### Brackets -/

theorem closingFrom_eq (depth : Nat) (joined : Bool) (ts : List Token) :
    (closingFrom (depth + 1) ts : Checked ε (Option Nat)) =
      .ok ((closing depth (ofTokens joined ts)).bind front) := by
  induction ts generalizing depth joined with
  | nil => rfl
  | cons t ts ih =>
    rw [closingFrom, ofTokens]
    by_cases hspace : t.isSpace
    · rw [not_isOpenBracket_of_isSpace hspace, not_isCloseBracket_of_isSpace hspace,
        if_neg Bool.false_ne_true, if_neg Bool.false_ne_true, if_pos hspace]
      exact ih depth false
    · rw [if_neg hspace]
      unfold closing
      by_cases hopen : t.isOpenBracket
      · rw [if_pos hopen, if_pos hopen]
        exact ih (depth + 1) true
      · rw [if_neg hopen, if_neg hopen]
        by_cases hclose : t.isCloseBracket
        · rw [if_pos hclose, if_pos hclose, sub_eq_ok (by omega), ok_bind, Nat.add_sub_cancel]
          cases depth with
          | zero => rfl
          | succ depth => exact ih depth true
        · rw [if_neg hclose, if_neg hclose]
          exact ih depth true

theorem matching_of_heads (h : Heads ts x r) (hopen : x.isOpenBracket) :
    (matching ts x.index : Checked ε (Option Nat)) = .ok ((closing 0 r).bind front) := by
  unfold matching
  rw [sliceFrom_of_heads h, ok_bind, closingFrom, if_pos hopen, ← h.after]
  exact closingFrom_eq 0 _ _

/-! ### Names -/

private theorem nameAt_rest {k : Nat} (hindexed : Indexed ts) (hjoined : endsJoined (ts.take k)) :
    (nameAt ts k).1 = (nameRest (ahead ts k)).1 ∧
      ahead ts (nameAt ts k).2 = (nameRest (ahead ts k)).2 := by
  rw [nameAt]
  split
  · rename_i t ht
    by_cases hspace : t.isSpace
    · have hpart : ¬ (t.isIdentifier || t.kind == .nsSeparator) := by
        rw [not_isIdentifier_of_isSpace hspace]
        rcases kind_of_isSpace hspace with hk | hk | hk <;> rw [hk] <;> decide
      have hrest : nameRest (ahead ts k) = ("", ahead ts k) := by
        cases hahead : ahead ts k with
        | nil => rfl
        | cons x r =>
          rw [nameRest, not_joined_of_space ht hspace hahead, Bool.false_and]
          rfl
      rw [if_neg hpart, hrest]
      exact ⟨rfl, rfl⟩
    · have hlt := (List.getElem?_eq_some_iff.mp ht).1
      have hafter : endsJoined (ts.take (k + 1)) := by
        rw [endsJoined_take_succ ht]
        simpa using hspace
      rw [ahead_of_not_space ht hspace, hjoined]
      by_cases hpart : t.isIdentifier || t.kind == Token.Kind.nsSeparator
      · have hpart' : (true && (⟨t, true⟩ : Lexeme).isNamePart) = true := hpart
        obtain ⟨hname, hrest⟩ := nameAt_rest hindexed hafter
        rw [if_pos hpart, nameRest, if_pos hpart']
        exact ⟨congrArg (t.text ++ ·) hname, hrest⟩
      · have hpart' : ¬ (true && (⟨t, true⟩ : Lexeme).isNamePart) := hpart
        rw [if_neg hpart, nameRest, if_neg hpart']
        refine ⟨rfl, ?_⟩
        rw [ahead_of_not_space ht hspace, hjoined]
  · rename_i hnone
    have hnil := ahead_of_le (List.getElem?_eq_none_iff.mp hnone)
    rw [hnil]
    exact ⟨rfl, rfl⟩
termination_by ts.length - k

theorem nameAt_of_heads (hindexed : Indexed ts) (h : Heads ts x r) :
    (nameAt ts x.index).1 = (readName (x :: r)).1 ∧
      ahead ts (nameAt ts x.index).2 = (readName (x :: r)).2 := by
  rw [nameAt]
  split
  · rename_i t ht
    rw [h.token, Option.some.injEq] at ht
    subst ht
    have hafter : endsJoined (ts.take (x.index + 1)) := by
      rw [endsJoined_take_succ h.token]
      simpa using h.notSpace
    obtain ⟨hname, hrest⟩ := nameAt_rest hindexed hafter
    rw [h.after] at hname hrest
    rw [readName]
    by_cases hpart : x.isNamePart
    · have hpart' : (x.isIdentifier || x.kind == Token.Kind.nsSeparator) = true := hpart
      rw [if_pos hpart', if_pos hpart]
      exact ⟨congrArg (x.text ++ ·) hname, hrest⟩
    · have hpart' : ¬ (x.isIdentifier || x.kind == Token.Kind.nsSeparator) = true := hpart
      rw [if_neg hpart', if_neg hpart]
      exact ⟨rfl, h.ahead_index⟩
  · rename_i hnone
    rw [h.token] at hnone
    contradiction

theorem namesAt_of_heads (hindexed : Indexed ts) {x : Lexeme} {r : List Lexeme}
    (h : Heads ts x r) : (namesAt ts x.index : Checked ε (List String × Nat)) =
      .ok ((readNames (x :: r)).1, (front (readNames (x :: r)).2).getD ts.length) := by
  obtain ⟨hname, hrest⟩ := nameAt_of_heads hindexed h
  have hsuffix := readName_suffix (x :: r)
  rw [namesAt, dif_pos h.lt, readNames_eq]
  dsimp only
  rw [hname]
  by_cases hempty : (readName (x :: r)).1.isEmpty
  · rw [if_pos hempty, if_pos hempty]
    rfl
  · rw [if_neg hempty, if_neg hempty, significant_eq, hrest]
    cases hafter : (readName (x :: r)).2 with
    | nil => rfl
    | cons y s =>
      rw [hafter] at hsuffix
      have hy : Heads ts y s := h.of_suffix_cons hindexed hsuffix
      dsimp only [front, List.head?_cons, Option.map_some]
      rw [present_of_heads hy, ok_bind]
      by_cases hcomma : y.is ","
      · rw [if_pos hcomma, if_pos hcomma, next_of_heads hy]
        cases s with
        | nil =>
          rw [readNames_eq]
          rfl
        | cons z s =>
          have hz := hy.of_suffix hindexed List.suffix_rfl
          have hlt : x.index < z.index :=
            Nat.lt_of_le_of_lt (h.le_of_mem hindexed (hsuffix.mem List.mem_cons_self))
              (hy.lt_of_mem hindexed List.mem_cons_self)
          have hzlt := hz.lt
          dsimp only [front, List.head?_cons, Option.map_some]
          rw [advance_eq hlt, namesAt_of_heads hindexed hz, ok_bind]
          rfl
      · rw [if_neg hcomma, if_neg hcomma]
        rfl
termination_by ts.length - x.index

/-! ### Lists and expressions -/

/-- A closing bracket is none too many where another bracket is open. -/
private theorem nest_eq {depth : Nat} {t : Token} (h : ¬ (depth = 0 ∧ t.isCloseBracket)) :
    (nest depth t : Checked ε Nat) =
    .ok (if t.isOpenBracket then depth + 1 else if t.isCloseBracket then depth - 1 else depth) := by
  unfold nest
  by_cases hopen : t.isOpenBracket
  · rw [if_pos hopen, if_pos hopen]
    rfl
  rw [if_neg hopen, if_neg hopen]
  by_cases hclose : t.isCloseBracket
  · rw [if_pos hclose, if_pos hclose, sub_eq_ok (by
      simp only [hclose, and_true] at h
      omega)]
  · rw [if_neg hclose, if_neg hclose]
    rfl

private theorem nest_of_space {depth : Nat} {t : Token} (h : t.isSpace) :
    (nest depth t : Checked ε Nat) = .ok depth := by
  have hclose := not_isCloseBracket_of_isSpace h
  rw [nest_eq (by simp [hclose]), not_isOpenBracket_of_isSpace h, hclose]
  rfl

theorem elementsFrom_eq (separator terminator : String) (first : Option Nat) (depth : Nat)
    (joined : Bool) (ts : List Token) :
    (elementsFrom separator terminator first depth ts : Checked ε (List Nat)) =
      .ok (first.toList ++ (listElements (α := Lexeme) Lexeme.toToken separator terminator
        first.isNone depth (ofTokens joined ts)).filterMap front) := by
  induction ts generalizing first depth joined with
  | nil =>
    rw [elementsFrom, ofTokens, listElements]
    simp
  | cons t ts ih =>
    rw [elementsFrom, ofTokens]
    by_cases hspace : t.isSpace
    · have hkeep : (first.isNone && !t.isSpace) = false := by simp [hspace]
      rw [not_is_of_isSpace hspace, not_is_of_isSpace hspace, not_isCloseBracket_of_isSpace hspace,
        nest_of_space hspace, hkeep, if_pos hspace]
      simpa using ih first depth false
    rw [if_neg hspace, listElements]
    dsimp only
    by_cases hend : depth == 0 && (t.is terminator || (t.isCloseBracket && !t.is separator))
    · rw [if_pos hend, if_pos hend]
      simp
    rw [if_neg hend, if_neg hend]
    by_cases hsep : depth == 0 && t.is separator
    · have hzero : depth = 0 := eq_of_beq (Bool.and_eq_true_iff.mp hsep).1
      rw [if_pos hsep, if_pos hsep, hzero, ih none 0 true]
      rfl
    rw [if_neg hsep, if_neg hsep]
    have hdepth : ¬ (depth = 0 ∧ t.isCloseBracket) := by
      rintro ⟨rfl, hclose⟩
      simp [hclose] at hend hsep
      simp [hsep] at hend
    rw [nest_eq hdepth, ok_bind, ih _ _ true]
    cases first with
    | none => simp [hspace, front]
    | some i => simp

theorem elements_eq (ts : List Token) (k : Nat) (separator terminator : String) :
    (elements ts k separator terminator : Checked ε (List Nat)) =
      .ok ((listElements (α := Lexeme) Lexeme.toToken separator terminator true 0
        (ahead ts k)).filterMap front) :=
  elementsFrom_eq separator terminator none 0 _ _

theorem arrowEndFrom_eq (depth last : Nat) (joined : Bool) (ts : List Token) :
    (arrowEndFrom depth last ts : Checked ε Nat) =
      .ok (expressionEnd depth last (ofTokens joined ts)) := by
  induction ts generalizing depth last joined with
  | nil => rfl
  | cons t ts ih =>
    rw [arrowEndFrom, ofTokens]
    by_cases hspace : t.isSpace
    · rw [if_pos hspace, if_pos hspace, ih]
    rw [if_neg hspace, if_neg hspace, expressionEnd]
    have hstop : (t.is ";" || t.is "," || t.isTerminator || t.isCloseBracket) =
        (t.is "," || t.isTerminator || t.isCloseBracket) := by
      unfold Token.isTerminator
      cases t.is ";" <;> simp
    rw [hstop]
    by_cases hend : depth == 0 && (t.is "," || t.isTerminator || t.isCloseBracket)
    · rw [if_pos hend, if_pos hend]
      rfl
    rw [if_neg hend, if_neg hend]
    have hdepth : ¬ (depth = 0 ∧ t.isCloseBracket) := by
      rintro ⟨rfl, hclose⟩
      simp [hclose] at hend
    rw [nest_eq hdepth, ok_bind, ih _ _ true]
    split
    · rfl
    · split <;> rfl

theorem arrowEnd_of_heads (h : Heads ts x r) :
    (arrowEnd ts x.index : Checked ε Nat) = .ok (expressionEnd 0 x.index r) := by
  unfold arrowEnd
  rw [sliceFrom_eq_ok h.lt, ok_bind, ← h.after]
  exact arrowEndFrom_eq 0 _ _ _

theorem typeEnd_of_heads (hindexed : Indexed ts) (hlong : LongOperators ts) {x : Lexeme}
    {r : List Lexeme} (h : Heads ts x r) :
    (typeEnd ts x.index : Checked ε (Option Nat)) = .ok ((skipType 0 (x :: r)).bind front) := by
  rw [typeEnd, dif_pos h.lt, present_of_heads h, ok_bind, skipType]
  have hends : (x.is "\x7b" || x.is "=>" || x.isTerminator) = x.endsSignature := rfl
  rw [hends]
  by_cases hend : x.endsSignature
  · rw [if_pos hend, if_pos hend]
    rfl
  rw [if_neg hend, if_neg hend]
  -- the type goes on behind `s`, whose first lexeme is `y`
  have hnext (y : Lexeme) (s : List Lexeme) (hs : (y :: s) <:+ x :: r) :
      (match next ts y.index with
        | none => return none
        | some n => advance x.index n fun _ => typeEnd ts n : Checked ε (Option Nat)) =
      .ok ((skipType 0 s).bind front) := by
    have hy := h.of_suffix_cons hindexed hs
    rw [next_of_heads hy]
    cases s with
    | nil => rfl
    | cons z s =>
      have hz := hy.of_suffix hindexed List.suffix_rfl
      have hlt : x.index < z.index :=
        Nat.lt_of_le_of_lt (h.le_of_mem hindexed (hs.mem List.mem_cons_self))
          (hy.lt_of_mem hindexed List.mem_cons_self)
      have hzlt := hz.lt
      dsimp only [front, List.head?_cons, Option.map_some]
      rw [advance_eq hlt]
      exact typeEnd_of_heads hindexed hlong hz
  by_cases hparen : x.is "("
  · have hopen := isOpenBracket_of_is hlong h.mem (Or.inl rfl) hparen
    rw [if_pos hparen, if_pos hparen, matching_of_heads h hopen, ok_bind]
    change _ = Except.ok ((skipType (0 + 1) r).bind front)
    rw [skipType_succ]
    cases hclosing : closing 0 r with
    | none => rfl
    | some s =>
      have hs := (closing_suffix hclosing).trans (List.suffix_cons x r)
      cases s with
      | nil => rfl
      | cons y s => exact hnext y s hs
  · rw [if_neg hparen, if_neg hparen]
    exact hnext x r List.suffix_rfl
termination_by ts.length - x.index

end PhpLint.Checked
