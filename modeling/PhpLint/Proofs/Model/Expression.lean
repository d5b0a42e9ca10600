import PhpLint.Proofs.Model.Level

/-!
The extent of an expression. It goes up to the first lexeme at its own level that stops it, so that
brackets and expressions that begin inside it end inside it.
-/
namespace PhpLint.Lexeme

variable {ts : List Token} {found : List (Nat × Nat)} {before before' after after' s : List Lexeme}
  {x y z : Lexeme} {i j : Nat}

/-- Whether a lexeme at the level of an expression stands behind it. -/
def stopsExpression (x : Lexeme) : Bool :=
  x.is "," || x.isTerminator || x.isCloseBracket

/-- The position of the last of some lexemes, or the one in front of them. -/
def lastIndex (last : Nat) (s : List Lexeme) : Nat :=
  (s.getLast?.map (·.index)).getD last

theorem lastIndex_cons (last : Nat) (x : Lexeme) (s : List Lexeme) :
    lastIndex last (x :: s) = lastIndex x.index s := by
  unfold lastIndex
  rw [List.getLast?_cons]
  cases s.getLast? <;> rfl

theorem lastIndex_mem (last : Nat) (s : List Lexeme) :
    lastIndex last s = last ∨ ∃ x ∈ s, lastIndex last s = x.index := by
  unfold lastIndex
  cases hlast : s.getLast? with
  | none => exact Or.inl rfl
  | some x => exact Or.inr ⟨x, List.mem_of_getLast? hlast, rfl⟩

theorem le_lastIndex (last : Nat) (hs : s.Pairwise (·.index < ·.index)) (hx : x ∈ s) :
    x.index ≤ lastIndex last s := by
  induction s generalizing last with
  | nil => contradiction
  | cons y s ih =>
    obtain ⟨hy, hs⟩ := List.pairwise_cons.mp hs
    rw [lastIndex_cons]
    rcases List.mem_cons.mp hx with rfl | hx
    · rcases lastIndex_mem x.index s with heq | ⟨z, hz, heq⟩
      · exact Nat.le_of_eq heq.symm
      · rw [heq]
        exact Nat.le_of_lt (hy z hz)
    · exact ih y.index hs hx

theorem expressionEnd_cons (depth last : Nat) (x : Lexeme) (s : List Lexeme) :
    expressionEnd depth last (x :: s) =
      if depth = 0 ∧ x.stopsExpression then last
      else expressionEnd (nested depth x.toToken) x.index s := by
  rw [expressionEnd]
  unfold nested stopsExpression
  by_cases hend : depth = 0 ∧ (x.is "," || x.isTerminator || x.isCloseBracket)
  · rw [if_pos hend, if_pos (by simpa using hend)]
  · rw [if_neg hend, if_neg (by simpa using hend)]
    split
    · rfl
    · split <;> rfl

/--
An expression is cut off some lexemes. Each of its lexemes is inside a bracket of it or stops
nothing, and the one behind it stops it at its own level.
-/
theorem expressionEnd_split {depth : Nat} {inside outside : List Token}
    (hopened : opened before = inside ++ outside) (hdepth : inside.length = depth) (last : Nat)
    (s : List Lexeme) :
    ∃ inner rest, s = inner ++ rest ∧ expressionEnd depth last s = lastIndex last inner ∧
      (∀ a z b, inner = a ++ z :: b → ∃ within, opened (a.reverse ++ before) = within ++ outside ∧
        ¬ (within = [] ∧ z.stopsExpression)) ∧
      ∀ z ∈ rest.head?, opened (inner.reverse ++ before) = outside ∧ z.stopsExpression := by
  induction s generalizing depth last before inside with
  | nil => exact ⟨[], [], rfl, rfl, by simp, nofun⟩
  | cons x s ih =>
    rw [expressionEnd_cons]
    by_cases hend : depth = 0 ∧ x.stopsExpression
    · have hnil : inside = [] := List.length_eq_zero_iff.mp (hdepth.trans hend.1)
      rw [if_pos hend]
      refine ⟨[], x :: s, rfl, rfl, by simp, fun z hz => ?_⟩
      cases Option.some.inj hz
      rw [hnil] at hopened
      exact ⟨hopened, hend.2⟩
    · have hgoes : ¬ (inside = [] ∧ x.stopsExpression) :=
        fun h => hend ⟨hdepth.symm.trans (List.length_eq_zero_iff.mpr h.1), h.2⟩
      have hclose : ¬ (inside = [] ∧ x.isCloseBracket) :=
        fun h => hgoes ⟨h.1, by unfold stopsExpression; simp [h.2]⟩
      obtain ⟨inside', hinside, hlength⟩ := opened_cons_append hopened hclose
      obtain ⟨inner, rest, hs, hlast, hinner, hrest⟩ := ih hinside rfl x.index
      rw [if_neg hend, ← hdepth, ← hlength]
      refine ⟨x :: inner, rest, by rw [hs]; rfl, by rw [hlast, lastIndex_cons], ?_, ?_⟩
      · intro a z b hsplit
        cases a with
        | nil =>
          rw [← (List.cons.inj hsplit).1]
          exact ⟨inside, hopened, hgoes⟩
        | cons w a =>
          obtain ⟨rfl, hinside⟩ := List.cons.inj hsplit
          obtain ⟨within, hwithin, hz⟩ := hinner a z b hinside
          refine ⟨within, ?_, hz⟩
          rw [← hwithin]
          simp
      · intro z hz
        obtain ⟨hout, hz⟩ := hrest z hz
        refine ⟨?_, hz⟩
        rw [← hout]
        simp

/-! ### Expressions of a file -/

theorem Paired.mem_after (h : Paired ts found)
    (hsplit : ofTokens false ts = before.reverse ++ y :: after) (hz : z ∈ ofTokens false ts)
    (hlt : y.index < z.index) : z ∈ after := by
  rw [hsplit] at hz
  rcases List.mem_append.mp hz with hz | hz
  · have := (h.rising hsplit).2.2 z (List.mem_reverse.mp hz) y List.mem_cons_self
    omega
  · rcases List.mem_cons.mp hz with rfl | hz
    · exact absurd hlt (Nat.lt_irrefl _)
    · exact hz

section Expression

variable (h : Paired ts found) (hsplit : ofTokens false ts = before.reverse ++ y :: after)
  (hopen : y.isOpenBracket = false) (hclose : y.isCloseBracket = false)
  (hsplit' : ofTokens false ts = before'.reverse ++ z :: after')

include h hsplit hopen hclose hsplit'

/-- Inside an expression the brackets around it are open, and nothing at its level stops it. -/
theorem Paired.opened_of_le_expressionEnd (hlt : y.index < z.index)
    (hle : z.index ≤ expressionEnd 0 y.index after) :
    ∃ within, opened before' = within ++ opened before ∧ ¬ (within = [] ∧ z.stopsExpression) := by
  have hlevel : opened (y :: before) = [] ++ opened before := opened_of_other hopen hclose
  obtain ⟨inner, rest, rfl, hlast, hinner, _⟩ :=
    expressionEnd_split hlevel List.length_nil y.index after
  have hz := h.mem_after hsplit (by rw [hsplit']; simp) hlt
  rcases List.mem_append.mp hz with hz | hz
  · obtain ⟨a, b, rfl⟩ := List.append_of_mem hz
    obtain ⟨within, hwithin, hstops⟩ := hinner a z b rfl
    have hsame : ofTokens false ts = (a.reverse ++ y :: before).reverse ++ z :: (b ++ rest) := by
      rw [hsplit]
      simp
    rw [(h.split_unique hsplit' hsame rfl).1]
    exact ⟨within, hwithin, hstops⟩
  · -- what is left over stands behind the last lexeme of the expression
    obtain ⟨hy, hafter⟩ := List.pairwise_cons.mp (h.rising hsplit).1
    rw [hlast] at hle
    rcases lastIndex_mem y.index inner with heq | ⟨w, hw, heq⟩
    · omega
    · have := (List.pairwise_append.mp hafter).2.2 w hw z hz
      omega

/-- Behind an expression comes a lexeme at its level that stops it. -/
theorem Paired.exists_stopsExpression (hlt : expressionEnd 0 y.index after < z.index) :
    ∃ first w rest, ofTokens false ts = first.reverse ++ w :: rest ∧
      expressionEnd 0 y.index after < w.index ∧ w.index ≤ z.index ∧
      opened first = opened before ∧ w.stopsExpression := by
  have hlevel : opened (y :: before) = [] ++ opened before := opened_of_other hopen hclose
  obtain ⟨inner, rest, rfl, hlast, _, hrest⟩ :=
    expressionEnd_split hlevel List.length_nil y.index after
  obtain ⟨hy, hafter⟩ := List.pairwise_cons.mp (h.rising hsplit).1
  obtain ⟨hinner, hrising, hbetween⟩ := List.pairwise_append.mp hafter
  rw [hlast] at hlt ⊢
  have hfrom : y.index ≤ lastIndex y.index inner := by
    rcases lastIndex_mem y.index inner with heq | ⟨w, hw, heq⟩
    · exact Nat.le_of_eq heq.symm
    · rw [heq]
      exact Nat.le_of_lt (hy w (List.mem_append_left _ hw))
  have hz : z ∈ rest := by
    have hz := h.mem_after hsplit (by rw [hsplit']; simp) (Nat.lt_of_le_of_lt hfrom hlt)
    rcases List.mem_append.mp hz with hz | hz
    · have := le_lastIndex y.index hinner hz
      omega
    · exact hz
  cases rest with
  | nil => contradiction
  | cons w rest =>
    obtain ⟨hopened, hstops⟩ := hrest w rfl
    refine ⟨inner.reverse ++ y :: before, w, rest, by rw [hsplit]; simp, ?_, ?_, hopened, hstops⟩
    · rcases lastIndex_mem y.index inner with heq | ⟨v, hv, heq⟩
      · rw [heq]
        exact hy w (List.mem_append_right _ List.mem_cons_self)
      · rw [heq]
        exact hbetween v hv w List.mem_cons_self
    · rcases List.mem_cons.mp hz with rfl | hz
      · exact Nat.le_refl _
      · exact Nat.le_of_lt ((List.pairwise_cons.mp hrising).1 z hz)

end Expression

section Nested

variable (h : Paired ts found) (hsplit : ofTokens false ts = before.reverse ++ y :: after)
  (hopen : y.isOpenBracket = false) (hclose : y.isCloseBracket = false)

include h hsplit hopen hclose

/-- An expression ends in front of the bracket that closes around it. -/
theorem Paired.expressionEnd_lt (hpair : (i, j) ∈ found) (hi : i < y.index) (hj : y.index < j) :
    expressionEnd 0 y.index after < j := by
  refine Nat.lt_of_not_le fun hle => ?_
  obtain ⟨before', z, after', hsplit', hz, rfl⟩ := h.exists_split_closing hpair
  obtain ⟨within, hwithin, hgoes⟩ :=
    h.opened_of_le_expressionEnd hsplit hopen hclose hsplit' hj hle
  obtain ⟨o, outside, hopened, ho⟩ := h.closing hsplit' hz
  have ho : o.index = i := h.partners_unique (Or.inr ho) (Or.inr hpair)
  have hi : i ∈ (opened before).map (·.index) :=
    (h.mem_opened_iff hsplit).mpr ⟨z.index, hpair, hi, Nat.le_of_lt hj⟩
  have hpairwise := h.opened_pairwise hsplit'
  -- the closed bracket would be the innermost one and lie around the expression as well
  cases within with
  | nil => exact hgoes ⟨rfl, by unfold stopsExpression; simp [hz]⟩
  | cons t within =>
    obtain ⟨u, hu, rfl⟩ := List.mem_map.mp hi
    rw [hwithin, List.cons_append] at hopened hpairwise
    rw [(List.cons.inj hopened).1] at hpairwise
    have := (List.pairwise_cons.mp hpairwise).1 u (List.mem_append_right _ hu)
    omega

/-- A bracket that opens inside an expression closes inside it. -/
theorem Paired.le_expressionEnd (hpair : (i, j) ∈ found) (hi : y.index < i)
    (hle : i ≤ expressionEnd 0 y.index after) : j ≤ expressionEnd 0 y.index after := by
  refine Nat.le_of_not_lt fun hlt => ?_
  obtain ⟨before', z, after', hsplit', _, rfl⟩ := h.exists_split_closing hpair
  obtain ⟨first, w, rest, hfirst, hbehind, hw, hlevel, _⟩ :=
    h.exists_stopsExpression hsplit hopen hclose hsplit' hlt
  have hmem : i ∈ (opened first).map (·.index) :=
    (h.mem_opened_iff hfirst).mpr ⟨z.index, hpair, by omega, hw⟩
  rw [hlevel] at hmem
  obtain ⟨_, _, hbefore, _⟩ := (h.mem_opened_iff hsplit).mp hmem
  omega

/-- An expression inside another one ends inside it. -/
theorem Paired.expressionEnd_le {x : Lexeme}
    (hsplit' : ofTokens false ts = before'.reverse ++ x :: after') (hopen' : x.isOpenBracket = false)
    (hclose' : x.isCloseBracket = false) (hlt : y.index < x.index)
    (hle : x.index ≤ expressionEnd 0 y.index after) :
    expressionEnd 0 x.index after' ≤ expressionEnd 0 y.index after := by
  refine Nat.le_of_not_lt fun hbeyond => ?_
  obtain ⟨z, hz, hlast⟩ : ∃ z ∈ after', expressionEnd 0 x.index after' = z.index := by
    rcases expressionEnd_mem 0 x.index after' with heq | hmem
    · omega
    · exact hmem
  obtain ⟨a, b, rfl⟩ := List.append_of_mem hz
  have hz : ofTokens false ts = (a.reverse ++ x :: before').reverse ++ z :: b := by
    rw [hsplit']
    simp
  obtain ⟨first, w, rest, hfirst, hbehind, hw, hlevel, hstops⟩ :=
    h.exists_stopsExpression hsplit hopen hclose hz (hlast ▸ hbeyond)
  obtain ⟨within, hwithin, _⟩ := h.opened_of_le_expressionEnd hsplit hopen hclose hsplit' hlt hle
  obtain ⟨within', hwithin', hgoes⟩ :=
    h.opened_of_le_expressionEnd hsplit' hopen' hclose' hfirst (by omega) (by omega)
  -- the lexeme that stops the outer expression is at the outer level, so inside no other bracket
  rw [hlevel, hwithin] at hwithin'
  have hlength := congrArg List.length hwithin'
  simp only [List.length_append] at hlength
  exact hgoes ⟨List.length_eq_zero_iff.mp (by omega), hstops⟩

end Nested

end PhpLint.Lexeme
