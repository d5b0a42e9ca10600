import PhpLint.Proofs.Checked.SourceFile
import PhpLint.Proofs.Rule.Interpolation

/-!
The search for variables that nothing reads, by positions: names inside texts are found among the
bytes, and the tokens of a body are visited one by one.
-/
namespace PhpLint.Checked

open PhpLint.Bracket (Indexed)
open Outline Text Token
open Rule.UnusedVariable (Reading Usage dynamicFunctions isNameChar variableOf)

variable {ε : Type} {bs s : List Char} {c : Char} {i : Nat}

/-! ### Texts -/

/-- The variable whose `$` stands at byte `start`, with its name up to byte `last`. -/
def variableAt (bs : List Char) (start last : Nat) : Checked ε (List String) :=
  if start + 1 < last then do
    let first ← present bs[start + 1]?
    if first.isDigit then return [] else return [← cut bs start last]
  else return []

/-- The variables named in a text from byte `i` on. A backslash takes the next byte along. -/
def variablesFrom (bs : List Char) (i : Nat) : Checked ε (List String) :=
  if _h : i < bs.length then do
    let b ← present bs[i]?
    if b == '\\' then variablesFrom bs (i + 2)
    else if b == '$' then
      let last := skip isNameChar bs (i + 1)
      let names ← variableAt bs i last
      return names ++ (← variablesFrom bs last)
    else variablesFrom bs (i + 1)
  else return []
termination_by bs.length - i
decreasing_by
  all_goals
    have : i + 1 ≤ skip isNameChar bs (i + 1) := Nat.le_add_right _ _
    omega

def interpolated (text : String) : Checked ε (List String) :=
  let s := text.toList
  if ['\''].isPrefixOf s || ['<', '<', '<', '\''].isPrefixOf s then return []
  else variablesFrom (octets s) 0

theorem uniform_isNameChar : Uniform isNameChar := by
  intro c d hc hd
  unfold isNameChar
  simp [hc, hd]

private theorem variablesFrom_high {b : Char} (hb : bs[i]? = some b) (hhigh : 0x80 ≤ b.toNat) :
    (variablesFrom bs i : Checked ε (List String)) = variablesFrom bs (i + 1) := by
  obtain ⟨hi, _⟩ := List.getElem?_eq_some_iff.mp hb
  have hne {a : Char} (ha : a.toNat < 0x80) : (b == a) = false := ne_of_high hhigh ha
  rw [variablesFrom, dif_pos hi, hb, present_some, ok_bind, hne (by decide), hne (by decide)]
  rfl

theorem variableAt_of_stands (h : Stands bs i ('$' :: s)) :
    (variableAt bs i (skip isNameChar bs (i + 1)) : Checked ε (List String)) =
      .ok (variableOf (s.takeWhile isNameChar).reverse) := by
  have hnext := h.next (by decide)
  have hlast := skip_of_stands hnext uniform_isNameChar
  have hcut := @cut_of_stands ε _ _ _ h (run isNameChar s + 1)
  rw [List.take_succ_cons, width_cons, width_singleton_of_ascii (by decide), ← Nat.add_assoc,
    ← hlast, take_run] at hcut
  rw [take_run] at hlast
  unfold variableAt variableOf
  rw [hcut, hlast]
  cases s with
  | nil => exact if_neg (Nat.lt_irrefl _)
  | cons c r =>
    by_cases hc : isNameChar c
    · obtain ⟨b, hb, hclass⟩ := hnext.byte
      have hpos : 0 < width (c :: r.takeWhile isNameChar) := width_pos (List.cons_ne_nil _ _)
      rw [List.takeWhile_cons_of_pos hc, if_pos (by omega), hb, present_some, ok_bind,
        hclass _ uniform_isDigit, List.getLast?_reverse, List.reverse_reverse]
      by_cases hdigit : c.isDigit <;> simp [hdigit]
    · rw [List.takeWhile_cons_of_neg hc]
      exact if_neg (Nat.lt_irrefl _)

theorem variablesFrom_of_stands {i : Nat} {s : List Char} (h : Stands bs i s) :
    (variablesFrom bs i : Checked ε (List String)) =
      .ok (Rule.UnusedVariable.variablesFrom .outside s) := by
  cases s with
  | nil =>
    have hend : i = bs.length := h.length
    rw [variablesFrom, dif_neg (by omega)]
    rfl
  | cons c r =>
    rw [Rule.UnusedVariable.variablesFrom]
    by_cases hc : c.toNat < 0x80
    · have hnext := h.next hc
      rw [variablesFrom, dif_pos h.lt, h.getElem?_of_ascii hc, present_some, ok_bind]
      by_cases hback : c = '\\'
      · subst hback
        rw [if_pos (by decide)]
        cases r with
        | nil =>
          have hend : i + 1 = bs.length := hnext.length
          rw [variablesFrom, dif_neg (by omega)]
          rfl
        | cons d r =>
          have hpass := hnext.pass_first (f := fun j => (variablesFrom bs j : Checked ε _))
            fun j b => variablesFrom_high
          have hrest : Stands bs (i + 1 + width [d]) r := @Stands.move bs [d] (i + 1) r hnext
          exact hpass.trans (variablesFrom_of_stands hrest)
      rw [if_neg (by simpa using hback)]
      by_cases hdollar : c = '$'
      · subst hdollar
        have hrest := variablesFrom_of_stands (stands_skip hnext uniform_isNameChar)
        rw [if_pos (by decide)]
        dsimp only
        rw [variableAt_of_stands h, ok_bind, hrest, ok_bind, drop_run]
        refine congrArg Except.ok ?_
        rw [← List.append_nil (List.reverse _)]
        exact (Rule.UnusedVariable.variablesFrom_name [] r).symm
      · rw [if_neg (by simpa using hdollar), variablesFrom_of_stands hnext]
        unfold Rule.UnusedVariable.Reading.after
        rw [if_neg (by simpa using hdollar), if_neg (by simpa using hback)]
    · have hc : 0x80 ≤ c.toNat := Nat.le_of_not_lt hc
      have hpass := h.pass hc (f := fun j => (variablesFrom bs j : Checked ε _))
        fun j b => variablesFrom_high
      have hrest : Stands bs (i + width [c]) r := @Stands.move bs [c] i r h
      unfold Rule.UnusedVariable.Reading.after
      rw [ne_of_high hc (by decide), ne_of_high hc (by decide)]
      exact hpass.trans (variablesFrom_of_stands hrest)
termination_by s.length

theorem interpolated_eq (text : String) : (interpolated text : Checked ε (List String)) =
    .ok (Rule.UnusedVariable.interpolated text) := by
  unfold interpolated Rule.UnusedVariable.interpolated
  dsimp only
  rw [variablesFrom_of_stands (stands_zero text.toList)]
  split <;> rfl

/-! ### Tokens of a body -/

/-- The variables of a statement from token `j` on. -/
def boundNames (ts : List Token) (j : Nat) : Checked ε (List String) :=
  if _h : j < ts.length then do
    let t ← present ts[j]?
    if t.isTerminator then return []
    else
      let names ← boundNames ts (j + 1)
      return if t.kind == .variable then t.text :: names else names
  else return []
termination_by ts.length - j

def isPlainAssignment (file : SourceFile) (i : Nat) : Checked ε Bool := do
  match ← nextSignificant file i with
  | none => return false
  | some t =>
    if t.is "=" then return !(← nextSignificant file t.index).any (·.is "&") else return false

def callsDynamic (file : SourceFile) (i : Nat) (t : Token) : Checked ε Bool := do
  if t.kind == .name && dynamicFunctions.any t.isWord then
    return (← nextSignificant file i).any (·.is "(")
  else return false

/-- A token of the function's own scope. -/
def ownToken (file : SourceFile) (u : Usage) (i : Nat) (t : Token) : Checked ε Usage := do
  match t.kind with
  | .punct => return if t.is "$" then { u with dynamic := true } else u
  | .name => return if ← callsDynamic file i t then { u with dynamic := true } else u
  | .keyword =>
    if t.isKeyword "global" || t.isKeyword "static" then
      let names ← boundNames file.tokens.toList (i + 1)
      return { u with exempt := names ++ u.exempt }
    else return u
  | .variable =>
    return if ← isPlainAssignment file i then u.assign t.text i else u.addRead [t.text]
  | .string | .heredoc => return u.addRead (← interpolated t.text)
  | _ => return u

/-- Whether one function stands right inside another. -/
def isDirectlyInside (file : SourceFile) (outer inner : Function) : Checked ε Bool := do
  if inner.index == 0 then return false
  else
    let before ← sub inner.index 1
    return (file.functionAt before).any (·.index == outer.index)

/-- A token of a function inside `f`. -/
def innerToken (file : SourceFile) (f inner : Function) (u : Usage) (i : Nat) (t : Token) :
    Checked ε Usage := do
  if ← isDirectlyInside file f inner then
    let u := if i == inner.index then u.addRead (inner.usedVariables.map (·.name)) else u
    let keyword ← present file.tokens[inner.index]?
    return if keyword.isKeyword "fn" && t.kind == .variable then u.addRead [t.text] else u
  else return u

def addToken (file : SourceFile) (f : Function) (u : Usage) (i : Nat) (t : Token) :
    Checked ε Usage :=
  match (file.functionAt i).filter (·.index != f.index) with
  | some inner => innerToken file f inner u i t
  | none => ownToken file u i t

/-- Goes through the body of a function from token `i` on, as long as names tell variables. -/
def usageFrom (file : SourceFile) (f : Function) (u : Usage) (i : Nat) : Checked ε Usage :=
  if _h : i ≤ f.bodyEnds ∧ i < file.tokens.size then do
    let t ← present file.tokens[i]?
    let u ← addToken file f u i t
    if u.dynamic then return u else usageFrom file f u (i + 1)
  else return u
termination_by file.tokens.size - i

/-- Tokens that assign variables of `f` which nothing reads. -/
def unusedIn (file : SourceFile) (f : Function) : Checked ε (List Nat) := do
  match f.bodyStarts with
  | none => return []
  | some start =>
    let bound := (f.parameters ++ f.usedVariables).map (·.name)
    return (← usageFrom file f ⟨[], [], bound, false⟩ start).unread

variable {file : SourceFile} {f : Function} {u : Usage} {t : Token}

theorem boundNames_eq (ts : List Token) (j : Nat) : (boundNames ts j : Checked ε (List String)) =
    .ok ((((ts.drop j).takeWhile (!·.isTerminator)).filter (·.kind == .variable)).map
      (·.text)) := by
  rw [boundNames]
  by_cases hj : j < ts.length
  · rw [dif_pos hj, List.drop_eq_getElem_cons hj, List.getElem?_eq_getElem hj, present_some,
      ok_bind]
    by_cases hend : ts[j].isTerminator
    · rw [if_pos hend, List.takeWhile_cons_of_neg (by simp [hend])]
      rfl
    · rw [if_neg hend, boundNames_eq ts (j + 1), ok_bind,
        List.takeWhile_cons_of_pos (by simp [hend])]
      by_cases hkind : ts[j].kind == .variable
      · rw [if_pos hkind, List.filter_cons, if_pos hkind]
        rfl
      · rw [if_neg hkind, List.filter_cons, if_neg hkind]
        rfl
  · rw [dif_neg hj, List.drop_eq_nil_of_le (by omega)]
    rfl
termination_by ts.length - j

theorem isPlainAssignment_eq (file : SourceFile) (i : Nat) :
    (isPlainAssignment file i : Checked ε Bool) =
      .ok (Rule.UnusedVariable.isPlainAssignment file i) := by
  unfold isPlainAssignment Rule.UnusedVariable.isPlainAssignment
  rw [nextSignificant_eq, ok_bind]
  cases file.nextSignificant i with
  | none => rfl
  | some t =>
    dsimp only
    rw [nextSignificant_eq, Option.any_some]
    cases t.is "=" <;> rfl

theorem callsDynamic_eq (file : SourceFile) (t : Token) :
    (callsDynamic file t.index t : Checked ε Bool) =
      .ok (Rule.UnusedVariable.callsDynamic file t) := by
  unfold callsDynamic Rule.UnusedVariable.callsDynamic
  rw [nextSignificant_eq]
  cases t.kind == .name && dynamicFunctions.any t.isWord <;> rfl

theorem ownToken_eq (file : SourceFile) (u : Usage) (t : Token) :
    (ownToken file u t.index t : Checked ε Usage) =
      .ok (Rule.UnusedVariable.ownToken file u t) := by
  unfold ownToken Rule.UnusedVariable.ownToken
  rw [callsDynamic_eq, isPlainAssignment_eq, boundNames_eq, interpolated_eq]
  cases t.kind with
  | keyword =>
    dsimp only
    split <;> rfl
  | _ => rfl

theorem isDirectlyInside_eq (file : SourceFile) (outer inner : Function) :
    (isDirectlyInside file outer inner : Checked ε Bool) =
      .ok (Rule.UnusedVariable.isDirectlyInside file outer inner) := by
  unfold isDirectlyInside Rule.UnusedVariable.isDirectlyInside
  by_cases hzero : inner.index = 0
  · rw [if_pos (by simpa using hzero), decide_eq_false (by omega)]
    rfl
  · rw [if_neg (by simpa using hzero), sub_eq_ok (by omega), decide_eq_true (by omega)]
    rfl

theorem innerToken_eq {inner : Function} (h : inner.index < file.tokens.size) (f : Function)
    (u : Usage) (t : Token) : (innerToken file f inner u t.index t : Checked ε Usage) =
      .ok (Rule.UnusedVariable.innerToken file f inner u t) := by
  unfold innerToken Rule.UnusedVariable.innerToken
  rw [isDirectlyInside_eq, ok_bind, Array.getElem?_eq_getElem h]
  cases Rule.UnusedVariable.isDirectlyInside file f inner <;> rfl

theorem addToken_eq (h : WellFormed file) (f : Function) (u : Usage) (t : Token) :
    (addToken file f u t.index t : Checked ε Usage) =
      .ok (Rule.UnusedVariable.addToken file f u t) := by
  unfold addToken Rule.UnusedVariable.addToken
  cases hinner : (file.functionAt t.index).filter (·.index != f.index) with
  | none => exact ownToken_eq file u t
  | some inner =>
    have hmem := SourceFile.mem_of_functionAt (Option.filter_eq_some_iff.mp hinner).1
    have hfits := h.functions inner hmem
    exact innerToken_eq (Nat.lt_trans hfits.index hfits.size) f u t

/-- Once variables may be reached by name, they stay so. -/
theorem dynamic_addToken (h : u.dynamic) (file : SourceFile) (f : Function) (t : Token) :
    (Rule.UnusedVariable.addToken file f u t).dynamic := by
  have hassign (name : String) (i : Nat) : (u.assign name i).dynamic := by
    unfold Usage.assign
    split <;> exact h
  unfold Rule.UnusedVariable.addToken
  split
  · unfold Rule.UnusedVariable.innerToken
    dsimp only
    split
    · exact h
    · split <;> split <;> exact h
  · unfold Rule.UnusedVariable.ownToken
    split
    · split <;> [rfl; exact h]
    · split <;> [rfl; exact h]
    · split <;> exact h
    · split <;> [exact hassign _ _; exact h]
    all_goals exact h

theorem unread_of_dynamic (h : u.dynamic) (file : SourceFile) (f : Function) (ts : List Token) :
    (ts.foldl (Rule.UnusedVariable.addToken file f) u).unread = [] := by
  induction ts generalizing u with
  | nil => exact if_pos h
  | cons t ts ih => exact ih (dynamic_addToken h file f t)

theorem usageFrom_eq (h : WellFormed file) (f : Function) (u : Usage) (i : Nat) :
    ∃ v, (usageFrom file f u i : Checked ε Usage) = .ok v ∧ v.unread =
      (((file.tokens.toList.take (f.bodyEnds + 1)).drop i).foldl
        (Rule.UnusedVariable.addToken file f) u).unread := by
  rw [usageFrom]
  by_cases hi : i ≤ f.bodyEnds ∧ i < file.tokens.size
  · have hlt : i < (file.tokens.toList.take (f.bodyEnds + 1)).length := by
      rw [List.length_take, Array.length_toList]
      omega
    have ht : (file.tokens.toList.take (f.bodyEnds + 1))[i] = file.tokens[i] := by simp
    have hindex : file.tokens[i].index = i := h.indexed i hi.2
    have hadd := addToken_eq (ε := ε) h f u file.tokens[i]
    rw [hindex] at hadd
    rw [dif_pos hi, Array.getElem?_eq_getElem hi.2, present_some, ok_bind, hadd, ok_bind,
      List.drop_eq_getElem_cons hlt, ht, List.foldl_cons]
    by_cases hdynamic : (Rule.UnusedVariable.addToken file f u file.tokens[i]).dynamic
    · rw [if_pos hdynamic, unread_of_dynamic hdynamic]
      exact ⟨_, rfl, if_pos hdynamic⟩
    · rw [if_neg hdynamic]
      exact usageFrom_eq h f _ (i + 1)
  · have hlength : (file.tokens.toList.take (f.bodyEnds + 1)).length ≤ i := by
      rw [List.length_take, Array.length_toList]
      omega
    rw [dif_neg hi, List.drop_eq_nil_of_le hlength]
    exact ⟨u, rfl, rfl⟩
termination_by file.tokens.size - i

theorem unusedIn_eq (h : WellFormed file) (f : Function) :
    (unusedIn file f : Checked ε (List Nat)) = .ok (Rule.UnusedVariable.unusedIn file f) := by
  unfold unusedIn Rule.UnusedVariable.unusedIn
  cases hstart : f.bodyStarts with
  | none => rfl
  | some start =>
    dsimp only
    obtain ⟨v, hv, hunread⟩ := usageFrom_eq (ε := ε) h f
      ⟨[], [], (f.parameters ++ f.usedVariables).map (·.name), false⟩ start
    rw [hv, ok_bind, hunread, toList_extract]
    rfl

end PhpLint.Checked
