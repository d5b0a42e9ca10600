import PhpLint.Proofs.Checked.Lookahead
import PhpLint.Proofs.Model.Element
import PhpLint.Proofs.Model.Signature

/-!
Function headers by positions in the token list. A header that is read this way is the one that is
read from the lexemes.
-/
namespace PhpLint.Checked

open PhpLint.Bracket (Indexed)
open Lexeme
open Parameter (Declared)

variable {ε : Type} {ts : List Token} {x : Lexeme} {r s : List Lexeme} {k : Nat}

/-! ### Parameters by positions -/

/-- Takes in one token in front of a parameter's name. -/
def take (d : Declared) (t : Token) (marksReference : Bool) : Declared :=
  match if t.kind == .keyword then Modifier.ofKeyword? t.text else none with
  | some m => d.addModifier m
  | none =>
    if t.isKeyword "readonly" then { d with promotion := some (d.promotion.getD .empty) }
    else if t.is "..." then { d with parameter.isVariadic := true }
    else if t.is "&" && marksReference then { d with parameter.isPassedByReference := true }
    else d.addType t.text

/-- A variable or the points in front of one. -/
def startsVariable (t : Token) : Bool :=
  t.kind == .variable || t.is "..."

/-- Reads a parameter from token `k` to its comma or to the end of its list. -/
def parameterFrom (ts : List Token) (close : Nat) (d : Declared) (named : Bool) (depth k : Nat) :
    Checked ε Declared :=
  if _h : k < close then do
    let t ← present ts[k]?
    if depth == 0 && t.is "," then return d
    else if t.isSpace then parameterFrom ts close d named depth (k + 1)
    else if !named && t.is "#" && ts[k + 1]?.any (·.is "[") then do
      let last := (← matching ts (k + 1)).getD close
      advance k (last + 1) fun _ => parameterFrom ts close d named depth (last + 1)
    else
      let depth := if t.isOpenBracket then depth + 1
        else if t.isCloseBracket then depth - 1 else depth
      if named then
        if depth == 0 && t.is "=" then
          return { d with parameter.hasDefaultValue := true }
        else parameterFrom ts close d true depth (k + 1)
      else if t.kind == .variable then
        parameterFrom ts close { d with parameter.name := t.text } true depth (k + 1)
      else do
        let marksReference ← if t.is "&" then followedBy ts k startsVariable else pure false
        parameterFrom ts close (take d t marksReference) false depth (k + 1)
  else return d
termination_by close - k

/-- The parameters between the parenthesis at a position and the one that closes it. -/
def parametersAt (ts : List Token) (opening : Nat) : Checked ε (Option (List Declared × Nat)) := do
  let t ← present ts[opening]?
  if !t.is "(" then return none
  else
    match ← matching ts opening with
    | none => return none
    | some close =>
      let starts ← elements ts (opening + 1) "," ")"
      let parameters ← starts.mapM fun k => parameterFrom ts close (.start k) false 0 k
      return some (parameters, close)

/-! ### Headers by positions -/

/-- A function header with the position of its name. -/
structure Header where
  returnsReference : Bool
  nameIndex : Option Nat
  parameters : List Declared
  usedVariables : List Parameter
  body : Body
  bodyAt : Nat

def referenceAt (ts : List Token) (k : Nat) : Checked ε (Bool × Option Nat) := do
  let t ← present ts[k]?
  if t.is "&" then return (true, next ts k) else return (false, some k)

def nameIndexAt (ts : List Token) (isArrow : Bool) (k : Nat) :
    Checked ε (Option Nat × Option Nat) := do
  let t ← present ts[k]?
  if !isArrow && t.isIdentifier then return (some k, next ts k) else return (none, some k)

def useAt (ts : List Token) (k : Nat) : Checked ε (Option (List Parameter × Nat)) := do
  let t ← present ts[k]?
  if t.isKeyword "use" then
    match next ts k with
    | none => return none
    | some opening =>
      match ← parametersAt ts opening with
      | none => return none
      | some (parameters, close) =>
        return (next ts close).map (parameters.map (·.parameter), ·)
  else return some ([], k)

def returnTypeAt (ts : List Token) (k : Nat) : Checked ε (Option Nat) := do
  let t ← present ts[k]?
  if t.is ":" then
    match next ts k with
    | none => return none
    | some k => typeEnd ts k
  else return some k

def bodyAt (ts : List Token) (k : Nat) : Checked ε (Option Body) := do
  let t ← present ts[k]?
  if t.is "\x7b" then return some .block
  else if t.isTerminator then return some .none
  else if t.is "=>" then return some (.expression (← arrowEnd ts k))
  else return none

/-- What comes between the parameters and the body of a header, and the body. -/
def bodyBehind (ts : List Token) (close : Nat) : Checked ε (Option (List Parameter × Body × Nat)) := do
  let some k := next ts close | return none
  let some (usedVariables, k) ← useAt ts k | return none
  let some k ← returnTypeAt ts k | return none
  let some body ← bodyAt ts k | return none
  return some (usedVariables, body, k)

/-- The header behind the keyword at a position, if it is complete. -/
def headerAt (ts : List Token) (isArrow : Bool) (i : Nat) : Checked ε (Option Header) := do
  let some k := next ts i | return none
  let (returnsReference, some k) ← referenceAt ts k | return none
  let (nameIndex, some k) ← nameIndexAt ts isArrow k | return none
  let some (parameters, close) ← parametersAt ts k | return none
  let some (usedVariables, body, k) ← bodyBehind ts close | return none
  return some ⟨returnsReference, nameIndex, parameters, usedVariables, body, k⟩

/-! ### Parameters -/

/-- Token `k` is in the list that the bracket at `close` ends, inside `depth` brackets of it. -/
def Inside (ts : List Token) (close depth k : Nat) : Prop :=
  ∃ y r, closing depth (ahead ts k) = some (y :: r) ∧ y.index = close

section Inside

variable {close depth : Nat} {t : Token} {d : Declared}

theorem Inside.bounds (hindexed : Indexed ts) (h : Inside ts close depth k) :
    k ≤ close ∧ close < ts.length := by
  obtain ⟨y, r, hclosing, rfl⟩ := h
  exact (rising_ahead hindexed k).between y ((closing_suffix hclosing).mem List.mem_cons_self)

theorem Inside.skip (h : Inside ts close depth k) (ht : ts[k]? = some t) (hspace : t.isSpace) :
    Inside ts close depth (k + 1) := by
  unfold Inside at h
  rwa [ahead_of_space ht hspace] at h

/-- In front of the end of the list no bracket closes it. -/
theorem Inside.step (hindexed : Indexed ts) (h : Inside ts close depth k) (hk : k < close)
    (ht : ts[k]? = some t) (hspace : ¬ t.isSpace) :
    ¬ (depth = 0 ∧ t.isCloseBracket) ∧ Inside ts close (nested depth t) (k + 1) := by
  obtain ⟨y, r, hclosing, hy⟩ := h
  rw [ahead_of_not_space ht hspace, closing_cons] at hclosing
  by_cases hend : depth = 0 ∧ t.isCloseBracket
  · rw [if_pos hend, Option.some.injEq, List.cons.injEq] at hclosing
    rw [← hclosing.1] at hy
    have hindex := index_of_getElem? hindexed ht
    change t.index = close at hy
    omega
  · rw [if_neg hend] at hclosing
    exact ⟨hend, y, r, hclosing, hy⟩

/-- At the end of the list an element ends. -/
theorem Inside.element_eq_nil (hindexed : Indexed ts) (h : Inside ts close depth k)
    (hk : ¬ k < close) : Parameter.element depth (ahead ts k) = [] := by
  obtain ⟨hle, hlt⟩ := h.bounds hindexed
  obtain rfl : k = close := by omega
  obtain ⟨y, r, hclosing, hy⟩ := h
  have hheads := heads_of_suffix hindexed (closing_suffix hclosing)
  have hahead := hheads.ahead_index
  rw [hy] at hahead
  rw [hahead, closing_cons] at hclosing
  by_cases hend : depth = 0 ∧ y.isCloseBracket
  · rw [hahead, Parameter.element_cons, if_pos (by simp [hend])]
  · rw [if_neg hend] at hclosing
    have := hheads.lt_of_mem hindexed ((closing_suffix hclosing).mem List.mem_cons_self)
    omega

/-- Behind the name only a default value matters. -/
theorem parameterFrom_named (hindexed : Indexed ts) {close depth k : Nat} (d : Declared)
    (h : Inside ts close depth k) :
    (parameterFrom ts close d true depth k : Checked ε Declared) =
      .ok (if Parameter.hasDefault depth (Parameter.element depth (ahead ts k)) then
        { d with parameter.hasDefaultValue := true } else d) := by
  obtain ⟨hle, hlt⟩ := h.bounds hindexed
  rw [parameterFrom]
  by_cases hk : k < close
  · have ht : ts[k]? = some ts[k] := List.getElem?_eq_getElem (by omega)
    rw [dif_pos hk, ht, present_some, ok_bind]
    by_cases hspace : ts[k].isSpace
    · rw [not_is_of_isSpace hspace, Bool.and_false, if_neg Bool.false_ne_true, if_pos hspace,
        ahead_of_space ht hspace]
      exact parameterFrom_named hindexed d (h.skip ht hspace)
    obtain ⟨hopen, hnext⟩ := h.step hindexed hk ht hspace
    rw [ahead_of_not_space ht hspace, Parameter.element_cons]
    by_cases hcomma : depth == 0 && ts[k].is ","
    · have hend : (depth == 0 && (ts[k].is "," || ts[k].isCloseBracket)) = true := by
        simp at hcomma ⊢
        exact ⟨hcomma.1, Or.inl hcomma.2⟩
      rw [if_pos hcomma, if_pos hend]
      rfl
    have hend : ¬ (depth == 0 && (ts[k].is "," || ts[k].isCloseBracket)) := by
      simp at hcomma hopen ⊢
      exact fun hzero => ⟨hcomma hzero, hopen hzero⟩
    rw [if_neg hcomma, if_neg hspace, if_neg hend, Parameter.hasDefault_cons, Bool.not_true, Bool.false_and,
      Bool.false_and, if_neg Bool.false_ne_true, if_pos rfl]
    change (if nested depth ts[k] == 0 && ts[k].is "=" then _
      else parameterFrom ts close d true (nested depth ts[k]) (k + 1)) = _
    by_cases hdefault : nested depth ts[k] == 0 && ts[k].is "="
    · rw [if_pos hdefault, hdefault]
      rfl
    · rw [if_neg hdefault, parameterFrom_named hindexed d hnext]
      rw [Bool.not_eq_true] at hdefault
      rw [hdefault]
      rfl
  · rw [dif_neg hk, h.element_eq_nil hindexed hk]
    rfl
termination_by close - k

/-- An attribute group inside an element is passed over. -/
private theorem read_hashGroup (d : Declared) (depth n : Nat) {s : List Lexeme}
    (h : closing n r = some s) :
    d.read depth (some (n + 1)) (Parameter.element (depth + n + 1) r) =
      d.read depth none (Parameter.element depth (s.drop 1)) := by
  induction r generalizing n with
  | nil => contradiction
  | cons x r ih =>
    rw [closing_cons] at h
    rw [Parameter.element_cons, if_neg (by simp), Declared.read]
    rw [Declared.insideHashGroup_succ]
    by_cases hend : n = 0 ∧ x.isCloseBracket
    · rw [if_pos hend] at h ⊢
      cases h
      rw [nested_of_isCloseBracket hend.2, hend.1]
      rfl
    · rw [if_neg hend] at h ⊢
      have hnested : nested (depth + n + 1) x.toToken = depth + nested n x.toToken + 1 := by
        have hshift : depth + n + 1 = n + (depth + 1) := by omega
        rw [hshift, nested_add hend]
        omega
      rw [hnested]
      exact ih _ h

private theorem next_eq_take (d : Declared) (x : Lexeme) (r : List Lexeme) :
    d.next x r = take d x.toToken (x.is "&" && Parameter.passesReference r) := by
  have hmarks : (x.is "&" && (x.is "&" && Parameter.passesReference r)) =
      (x.is "&" && Parameter.passesReference r) := by rw [← Bool.and_assoc, Bool.and_self]
  unfold Declared.next take
  generalize (if x.kind == Token.Kind.keyword then Modifier.ofKeyword? x.text else none) = m
  cases m with
  | some m => rfl
  | none =>
    dsimp only
    rw [hmarks]

private theorem hasDefaultValue_take (d : Declared) (t : Token) (marksReference : Bool) :
    (take d t marksReference).parameter.hasDefaultValue = d.parameter.hasDefaultValue := by
  unfold take
  split
  · rfl
  · split
    · rfl
    · split
      · rfl
      · split <;> rfl

private theorem head_element {depth : Nat} {s : List Lexeme} {y : Lexeme}
    (h : (Parameter.element depth s).head? = some y) : s.head? = some y := by
  cases s with
  | nil => contradiction
  | cons x r =>
    rw [Parameter.element_cons] at h
    split at h
    · contradiction
    · exact h

private theorem head_element_of_isOpenBracket {depth : Nat} {y : Lexeme} (h : y.isOpenBracket) :
    (Parameter.element depth (y :: r)).head? = some y := by
  have hcomma : y.is "," = false := not_is_of_isOpenBracket h (by decide)
  have hclose : ¬ y.isCloseBracket := fun hclose => by
    rw [Bracket.not_open_of_isCloseBracket hclose] at h
    contradiction
  rw [Parameter.element_cons, if_neg (by simp [hclose, hcomma])]
  rfl

/-- What comes after a position, up to the end of an element. -/
private theorem followedBy_startsVariable (hindexed : Indexed ts) (k depth : Nat) :
    (followedBy ts k startsVariable : Checked ε Bool) =
      .ok (Parameter.passesReference (Parameter.element depth (ahead ts (k + 1)))) := by
  rw [followedBy_eq hindexed]
  congr 1
  cases ahead ts (k + 1) with
  | nil => rfl
  | cons y r =>
    rw [Parameter.element_cons]
    by_cases hend : depth == 0 && (y.is "," || y.isCloseBracket)
    · rw [if_pos hend]
      change (y.kind == Token.Kind.variable || y.is "...") = false
      rcases Bool.or_eq_true_iff.mp (Bool.and_eq_true_iff.mp hend).2 with hcomma | hclose
      · unfold Token.is at hcomma ⊢
        simp only [Bool.and_eq_true, Bool.or_eq_true, beq_iff_eq] at hcomma
        obtain ⟨hkind | hkind, htext⟩ := hcomma <;> rw [hkind, htext] <;> rfl
      · have hkind : y.kind = Token.Kind.punct := eq_of_beq (Bool.and_eq_true_iff.mp hclose).1
        rw [not_is_of_isCloseBracket hclose (by decide), hkind]
        rfl
    · rw [if_neg hend]
      rfl

/-- An attribute group that opens inside the list ends there, and is passed over. -/
private theorem hashGroup_of_heads (hindexed : Indexed ts) {close depth : Nat} {y : Lexeme}
    (d : Declared) (hy : Heads ts y r) (hopen : y.isOpenBracket)
    (h : Inside ts close depth y.index) :
    ∃ last, y.index < last ∧ (matching ts y.index : Checked ε (Option Nat)) = .ok (some last) ∧
      Inside ts close depth (last + 1) ∧
      d.read depth (some 0) (Parameter.element depth (y :: r)) =
        d.read depth none (Parameter.element depth (ahead ts (last + 1))) := by
  have hnested (n : Nat) : nested n y.toToken = n + 1 := if_pos hopen
  have hclose : ¬ y.isCloseBracket := fun hclose => by
    rw [Bracket.not_open_of_isCloseBracket hclose] at hopen
    contradiction
  have hcomma : y.is "," = false := not_is_of_isOpenBracket hopen (by decide)
  obtain ⟨z, t, hclosing, hz⟩ := h
  rw [hy.ahead_index, closing_cons, if_neg (by simp [hclose]), hnested,
    ← Nat.zero_add depth, closing_add] at hclosing
  obtain ⟨s, hs, hclosing⟩ := Option.bind_eq_some_iff.mp hclosing
  cases s with
  | nil => contradiction
  | cons w s =>
    have hw := hy.of_suffix hindexed (closing_suffix hs)
    have hlt := hy.lt_of_mem hindexed ((closing_suffix hs).mem List.mem_cons_self)
    refine ⟨w.index, hlt, ?_, ⟨z, t, ?_, hz⟩, ?_⟩
    · rw [matching_of_heads hy hopen, hs]
      rfl
    · rw [hw.after]
      exact hclosing
    · have hstart : Declared.insideHashGroup 0 y = some (0 + 1) := if_pos hopen
      rw [Parameter.element_cons, if_neg (by simp [hclose, hcomma]), Declared.read, hstart, hnested, hw.after]
      exact read_hashGroup d depth 0 hs

theorem parameterFrom_eq (hindexed : Indexed ts) (hlong : LongOperators ts) {close depth k : Nat}
    (d : Declared) (hd : d.parameter.hasDefaultValue = false) (h : Inside ts close depth k) :
    (parameterFrom ts close d false depth k : Checked ε Declared) =
      .ok (d.read depth none (Parameter.element depth (ahead ts k))) := by
  obtain ⟨hle, hlt⟩ := h.bounds hindexed
  rw [parameterFrom]
  by_cases hk : k < close
  · have ht : ts[k]? = some ts[k] := List.getElem?_eq_getElem (by omega)
    rw [dif_pos hk, ht, present_some, ok_bind]
    by_cases hspace : ts[k].isSpace
    · rw [not_is_of_isSpace hspace, Bool.and_false, if_neg Bool.false_ne_true, if_pos hspace,
        ahead_of_space ht hspace]
      exact parameterFrom_eq hindexed hlong d hd (h.skip ht hspace)
    obtain ⟨hopen, hnext⟩ := h.step hindexed hk ht hspace
    rw [ahead_of_not_space ht hspace, Parameter.element_cons]
    by_cases hcomma : depth == 0 && ts[k].is ","
    · have hend : (depth == 0 && (ts[k].is "," || ts[k].isCloseBracket)) = true := by
        simp at hcomma ⊢
        exact ⟨hcomma.1, Or.inl hcomma.2⟩
      rw [if_pos hcomma, if_pos hend]
      rfl
    have hend : ¬ (depth == 0 && (ts[k].is "," || ts[k].isCloseBracket)) := by
      simp at hcomma hopen ⊢
      exact fun hzero => ⟨hcomma hzero, hopen hzero⟩
    rw [if_neg hcomma, if_neg hspace, if_neg hend, Bool.not_false, Bool.true_and, Declared.read]
    by_cases hgroup : ts[k].is "#" && ts[k + 1]?.any (·.is "[")
    · obtain ⟨hhash, hbracket⟩ := Bool.and_eq_true_iff.mp hgroup
      obtain ⟨u, hu, hbracket⟩ := (Option.any_eq_true _ _).mp hbracket
      have huspace : ¬ u.isSpace := fun huspace => by
        rw [not_is_of_isSpace huspace] at hbracket
        contradiction
      have hflat : nested depth ts[k] = depth := nested_of_is hhash (by decide) depth
      have hahead := ahead_of_not_space hu huspace
      have hindex := index_of_getElem? hindexed hu
      have huopen := isOpenBracket_of_is hlong (List.mem_of_getElem? hu) (Or.inr (Or.inl rfl))
        hbracket
      have hafter : endsJoined (ts.take (k + 1)) := by
        rw [endsJoined_take_succ ht]
        simpa using hspace
      generalize hy : (⟨u, endsJoined (ts.take (k + 1))⟩ : Lexeme) = y at hahead
      have hyindex : y.index = k + 1 := by rw [← hy, ← hindex]
      have hyopen : y.isOpenBracket := by rw [← hy]; exact huopen
      have hybracket : (y.is "[" && y.joined) = true := by
        rw [← hy]
        simp [hbracket, hafter]
      obtain ⟨-, hheads⟩ := heads_of_ahead hindexed hahead
      rw [hflat, ← hyindex] at hnext
      obtain ⟨last, hlast, hmatching, hinside, hread⟩ :=
        hashGroup_of_heads (ε := ε) hindexed d hheads hyopen hnext
      have hopens : Declared.opensHashGroup ⟨ts[k], endsJoined (ts.take k)⟩
          (Parameter.element depth (y :: ahead ts (k + 1 + 1))) := by
        unfold Declared.opensHashGroup
        rw [head_element_of_isOpenBracket hyopen, Option.any_some, hybracket, Bool.and_true]
        exact hhash
      rw [hyindex] at hmatching hlast
      have hvariable : ¬ (ts[k].kind == Token.Kind.variable) := fun hvariable => by
        unfold Token.is at hhash
        rw [eq_of_beq hvariable] at hhash
        contradiction
      rw [if_pos hgroup, hmatching, ok_bind, hflat, hahead]
      dsimp only [Option.getD_some]
      rw [advance_eq (by omega), if_neg hvariable, if_pos hopens, hread]
      exact parameterFrom_eq hindexed hlong d hd hinside
    have hrest : ¬ Declared.opensHashGroup ⟨ts[k], endsJoined (ts.take k)⟩
        (Parameter.element (nested depth ts[k]) (ahead ts (k + 1))) := by
      intro hopens
      obtain ⟨hhash, hbracket⟩ := Bool.and_eq_true_iff.mp hopens
      obtain ⟨y, hy, hbracket⟩ := (Option.any_eq_true _ _).mp hbracket
      obtain ⟨hbracket, hjoined⟩ := Bool.and_eq_true_iff.mp hbracket
      apply hgroup
      rw [Bool.and_eq_true]
      refine ⟨hhash, ?_⟩
      obtain ⟨s, hs⟩ := List.head?_eq_some_iff.mp (head_element hy)
      cases hu : ts[k + 1]? with
      | none =>
        rw [ahead_of_le (List.getElem?_eq_none_iff.mp hu)] at hs
        contradiction
      | some u =>
        by_cases huspace : u.isSpace
        · rw [not_joined_of_space hu huspace hs] at hjoined
          contradiction
        · rw [ahead_of_not_space hu huspace, List.cons.injEq] at hs
          rw [← hs.1] at hbracket
          exact hbracket
    rw [if_neg hgroup]
    dsimp only
    rw [if_neg Bool.false_ne_true, if_neg hrest]
    by_cases hvariable : ts[k].kind == Token.Kind.variable
    · have hflat : nested depth ts[k] = depth := nested_of_kind (by rw [eq_of_beq hvariable]; decide) depth
      rw [if_pos hvariable, if_pos hvariable]
      change parameterFrom ts close _ true (nested depth ts[k]) (k + 1) = _
      rw [parameterFrom_named hindexed _ hnext, hflat]
      obtain ⟨parameter, promotion⟩ := d
      obtain ⟨index, name, typeName, byReference, default, variadic⟩ := parameter
      cases hd
      cases Parameter.hasDefault depth (Parameter.element depth (ahead ts (k + 1))) <;> rfl
    rw [if_neg hvariable, if_neg hvariable]
    have hnest : (if ts[k].isOpenBracket then depth + 1
        else if ts[k].isCloseBracket then depth - 1 else depth) = nested depth ts[k] := rfl
    rw [hnest]
    have htake (marks : Bool) (hmarks : (ts[k].is "&" && Parameter.passesReference
          (Parameter.element (nested depth ts[k]) (ahead ts (k + 1)))) = marks) :
        (parameterFrom ts close (take d ts[k] marks) false (nested depth ts[k]) (k + 1) :
          Checked ε Declared) =
        .ok ((d.next ⟨ts[k], endsJoined (ts.take k)⟩
          (Parameter.element (nested depth ts[k]) (ahead ts (k + 1)))).read (nested depth ts[k]) none
            (Parameter.element (nested depth ts[k]) (ahead ts (k + 1)))) := by
      rw [next_eq_take, ← hmarks]
      exact parameterFrom_eq hindexed hlong _ ((hasDefaultValue_take _ _ _).trans hd) hnext
    by_cases hmark : ts[k].is "&"
    · rw [if_pos hmark, followedBy_startsVariable hindexed k (nested depth ts[k]), ok_bind]
      exact htake _ (by rw [hmark, Bool.true_and])
    · rw [if_neg hmark, pure_eq_ok, ok_bind]
      exact htake _ (by rw [Bool.not_eq_true] at hmark; rw [hmark, Bool.false_and])
  · rw [dif_neg hk, h.element_eq_nil hindexed hk]
    rfl
termination_by close - k

end Inside

/-- The closing bracket of a list closes what follows every beginning of an element. -/
theorem closing_of_mem_listElements {terminator : String} {fresh : Bool} {depth : Nat}
    {c : List Lexeme} (hfresh : fresh → depth = 0) (h : closing depth s = some c) {e : List Lexeme}
    (he : e ∈ listElements Lexeme.toToken "," terminator fresh depth s) :
    closing 0 e = some c := by
  induction s generalizing fresh depth with
  | nil => contradiction
  | cons x r ih =>
    rw [listElements_step _ (by decide)] at he
    split at he
    · contradiction
    rename_i hend
    have hrest := h
    rw [closing_cons, if_neg fun hclose => hend ⟨hclose.1, by rw [hclose.2, Bool.or_true]⟩] at hrest
    split at he
    · rename_i hcomma
      rw [hcomma.1, nested_of_is hcomma.2 (by decide)] at hrest
      exact ih (fun _ => rfl) hrest he
    · rcases List.mem_append.mp he with he | he
      · split at he
        · rename_i hbegin
          rw [List.mem_singleton.mp he]
          rw [hfresh hbegin.1] at h
          exact h
        · contradiction
      · refine ih (fun hf => ?_) hrest he
        obtain ⟨hf, hspace⟩ := Bool.and_eq_true_iff.mp hf
        rw [nested_of_isSpace hspace, hfresh hf]

/-- What is read at the beginnings of some elements is what is read of the elements. -/
theorem mapM_front {α : Type} {f : Nat → Checked ε α} {g : List Lexeme → α}
    {es : List (List Lexeme)} (h : ∀ e ∈ es, ∃ z t, e = z :: t ∧ f z.index = .ok (g e)) :
    (es.filterMap front).mapM f = .ok (es.map g) := by
  induction es with
  | nil => rfl
  | cons e es ih =>
    obtain ⟨z, t, rfl, hz⟩ := h e List.mem_cons_self
    have hfront : front (z :: t) = some z.index := rfl
    rw [List.filterMap_cons_some hfront, List.mapM_cons, hz, ok_bind,
      ih fun e he => h e (List.mem_cons_of_mem _ he)]
    rfl

theorem parametersAt_of_heads (hindexed : Indexed ts) (hlong : LongOperators ts)
    (h : Heads ts x r) : (parametersAt ts x.index : Checked ε (Option (List Declared × Nat))) =
      .ok (if x.is "(" then
        ((closing 0 r).bind front).map fun close => (Parameter.readList r, close) else none) := by
  unfold parametersAt
  rw [present_of_heads h, ok_bind]
  by_cases hparen : x.is "("
  · have hopen := isOpenBracket_of_is hlong h.mem (Or.inl rfl) hparen
    rw [if_neg (by simp [hparen]), if_pos hparen, matching_of_heads h hopen, ok_bind]
    cases hclosing : closing 0 r with
    | none => rfl
    | some s =>
      cases s with
      | nil => rfl
      | cons y s =>
        dsimp only [Option.bind_some, front, List.head?_cons, Option.map_some]
        rw [elements_eq, ok_bind, h.after]
        have hread : ∀ e ∈ listElements Lexeme.toToken "," ")" true 0 r, ∃ z t, e = z :: t ∧
            (parameterFrom ts y.index (.start z.index) false 0 z.index : Checked ε Declared) =
              .ok (Declared.ofLexemes e) := by
          intro e he
          have hc := closing_of_mem_listElements (fun _ => rfl) hclosing he
          obtain ⟨hne, hs⟩ := listElements_suffix he
          obtain ⟨z, t, rfl⟩ := List.exists_cons_of_ne_nil hne
          have hz := h.of_suffix hindexed hs
          have hinside : Inside ts y.index 0 z.index := ⟨y, s, by rw [hz.ahead_index]; exact hc, rfl⟩
          refine ⟨z, t, rfl, ?_⟩
          rw [parameterFrom_eq hindexed hlong _ rfl hinside, hz.ahead_index]
          rfl
        rw [mapM_front hread, ok_bind]
        rfl
  · rw [if_pos (by simpa using hparen), if_neg hparen]
    rfl

/-! ### Headers -/

/-- The same header, without the lexeme of its name. -/
def Header.ofSignature (header : Signature) : Header :=
  ⟨header.returnsReference, header.name.map (·.index), header.parameters, header.usedVariables,
    header.body, header.bodyAt⟩

theorem referenceAt_of_heads (h : Heads ts x r) :
    (referenceAt ts x.index : Checked ε (Bool × Option Nat)) =
      .ok ((Signature.optional "&" (x :: r)).1, front (Signature.optional "&" (x :: r)).2) := by
  unfold referenceAt Signature.optional
  rw [present_of_heads h, ok_bind, next_of_heads h]
  dsimp only
  split <;> rfl

theorem nameIndexAt_of_heads (isArrow : Bool) (h : Heads ts x r) :
    (nameIndexAt ts isArrow x.index : Checked ε (Option Nat × Option Nat)) =
      .ok ((Signature.readName isArrow (x :: r)).1.map (·.index),
        front (Signature.readName isArrow (x :: r)).2) := by
  unfold nameIndexAt Signature.readName
  rw [present_of_heads h, ok_bind, next_of_heads h]
  dsimp only
  split <;> rfl

theorem useAt_of_heads (hindexed : Indexed ts) (hlong : LongOperators ts) (h : Heads ts x r) :
    (useAt ts x.index : Checked ε (Option (List Parameter × Nat))) =
      .ok ((Signature.readUse (x :: r)).bind fun (used, s) => (front s).map (used, ·)) := by
  unfold useAt Signature.readUse
  rw [present_of_heads h, ok_bind]
  dsimp only
  by_cases huse : x.isKeyword "use"
  · rw [if_pos huse, if_pos huse, next_of_heads h]
    cases r with
    | nil => rfl
    | cons y r =>
      have hy := h.of_suffix hindexed List.suffix_rfl
      dsimp only [front, List.head?_cons, Option.map_some]
      rw [parametersAt_of_heads hindexed hlong hy, ok_bind, Signature.expect]
      by_cases hparen : y.is "("
      · rw [if_pos hparen, if_pos hparen]
        dsimp only [bind, Option.bind_some]
        unfold afterClosing
        cases hclosing : closing 0 r with
        | none => rfl
        | some s =>
          cases s with
          | nil => rfl
          | cons z s =>
            have hz := hy.of_suffix hindexed (closing_suffix hclosing)
            change Except.ok ((next ts z.index).map _) = _
            rw [next_of_heads hz]
            rfl
      · rw [if_neg hparen, if_neg hparen]
        rfl
  · rw [if_neg huse, if_neg huse]
    rfl

theorem returnTypeAt_of_heads (hindexed : Indexed ts) (hlong : LongOperators ts)
    (h : Heads ts x r) : (returnTypeAt ts x.index : Checked ε (Option Nat)) =
      .ok ((Signature.skipReturnType (x :: r)).bind front) := by
  unfold returnTypeAt Signature.skipReturnType
  rw [present_of_heads h, ok_bind]
  dsimp only
  by_cases hcolon : x.is ":"
  · rw [if_pos hcolon, if_pos hcolon, next_of_heads h]
    cases r with
    | nil => rfl
    | cons y r => exact typeEnd_of_heads hindexed hlong (h.of_suffix hindexed List.suffix_rfl)
  · rw [if_neg hcolon, if_neg hcolon]
    rfl

theorem bodyAt_of_heads (h : Heads ts x r) :
    (bodyAt ts x.index : Checked ε (Option Body)) = .ok (Signature.body? x r) := by
  unfold bodyAt Signature.body?
  rw [present_of_heads h, ok_bind, arrowEnd_of_heads h]
  split
  · rfl
  · split
    · rfl
    · split <;> rfl

theorem bodyBehind_of_heads (hindexed : Indexed ts) (hlong : LongOperators ts) (h : Heads ts x r) :
    (bodyBehind ts x.index : Checked ε (Option (List Parameter × Body × Nat))) =
      .ok (do
        let (used, s) ← Signature.readUse r
        let y :: t ← Signature.skipReturnType s | none
        let body ← Signature.body? y t
        return (used, body, y.index)) := by
  unfold bodyBehind
  rw [next_of_heads h]
  cases r with
  | nil => rfl
  | cons y r =>
    have hy := h.of_suffix hindexed List.suffix_rfl
    dsimp only [front, List.head?_cons, Option.map_some]
    rw [useAt_of_heads hindexed hlong hy, ok_bind]
    cases huse : Signature.readUse (y :: r) with
    | none => rfl
    | some read =>
      obtain ⟨used, s⟩ := read
      cases s with
      | nil => rfl
      | cons z s =>
        have hz := hy.of_suffix_cons hindexed (Signature.readUse_suffix huse)
        dsimp only [front, List.head?_cons, Option.map_some, Option.bind_some]
        rw [returnTypeAt_of_heads hindexed hlong hz, ok_bind]
        change _ = Except.ok ((Signature.skipReturnType (z :: s)).bind _)
        cases htype : Signature.skipReturnType (z :: s) with
        | none => rfl
        | some s =>
          cases s with
          | nil => rfl
          | cons w s =>
            have hw := hz.of_suffix_cons hindexed (Signature.skipReturnType_suffix htype)
            dsimp only [front, List.head?_cons, Option.map_some, Option.bind_some]
            rw [bodyAt_of_heads hw, ok_bind]
            cases Signature.body? w s <;> rfl

theorem headerAt_eq (hindexed : Indexed ts) (hlong : LongOperators ts) (isArrow : Bool) (i : Nat) :
    (headerAt ts isArrow i : Checked ε (Option Header)) =
      .ok ((Signature.read? isArrow (ahead ts (i + 1))).map Header.ofSignature) := by
  unfold headerAt Signature.read? next
  rw [significant_eq]
  cases hahead : ahead ts (i + 1) with
  | nil => rfl
  | cons x r =>
    obtain ⟨-, hx⟩ := heads_of_ahead hindexed hahead
    dsimp only [front, List.head?_cons, Option.map_some]
    rw [referenceAt_of_heads hx, ok_bind]
    have hsuffix := Signature.optional_suffix "&" (x :: r)
    generalize Signature.optional "&" (x :: r) = read at hsuffix ⊢
    obtain ⟨returnsReference, s⟩ := read
    cases s with
    | nil => rfl
    | cons y r₁ =>
      have hy := hx.of_suffix_cons hindexed hsuffix
      dsimp only [front, List.head?_cons, Option.map_some]
      rw [nameIndexAt_of_heads isArrow hy, ok_bind]
      have hsuffix := Signature.readName_suffix isArrow (y :: r₁)
      generalize Signature.readName isArrow (y :: r₁) = read at hsuffix ⊢
      obtain ⟨name, s⟩ := read
      cases s with
      | nil => rfl
      | cons z r₂ =>
        have hz := hy.of_suffix_cons hindexed hsuffix
        dsimp only [front, List.head?_cons, Option.map_some]
        rw [parametersAt_of_heads hindexed hlong hz, ok_bind, Signature.expect]
        by_cases hparen : z.is "("
        · rw [if_pos hparen, if_pos hparen]
          change _ = Except.ok (((afterClosing r₂).bind _).map Header.ofSignature)
          unfold afterClosing
          cases hclosing : closing 0 r₂ with
          | none => rfl
          | some s =>
            cases s with
            | nil => rfl
            | cons w s =>
              have hw := hz.of_suffix hindexed (closing_suffix hclosing)
              have hdrop : (w :: s).drop 1 = s := rfl
              dsimp only [front, List.head?_cons, Option.map_some, Option.bind_some]
              rw [bodyBehind_of_heads hindexed hlong hw, ok_bind, hdrop]
              cases Signature.readUse s with
              | none => rfl
              | some read =>
                dsimp only [bind, Option.bind_some]
                cases Signature.skipReturnType read.2 with
                | none => rfl
                | some s =>
                  cases s with
                  | nil => rfl
                  | cons v s =>
                    dsimp only [Option.bind_some]
                    cases Signature.body? v s <;> rfl
        · rw [if_neg hparen, if_neg hparen]
          rfl

end PhpLint.Checked
