import PhpLint.Proofs.Model.Lexeme

/-!
The brackets that are open in front of a lexeme. In a file whose brackets pair they are the ones
whose pair lies around the lexeme.
-/
namespace PhpLint.Bracket

variable {stack ts : List Token} {found : List (Nat × Nat)}

/-! ### Pairs of a part of a file -/

/-- Every bracket that is open already is closed later. -/
theorem exists_closing_of_mem_stack (h : pairsFrom stack ts = .ok found) {o : Token}
    (ho : o ∈ stack) : ∃ c ∈ ts, c.isCloseBracket ∧ (o.index, c.index) ∈ found := by
  induction ts generalizing stack found with
  | nil =>
    cases stack with
    | nil => contradiction
    | cons => contradiction
  | cons t ts ih =>
    have hlater {stack' : List Token} {more : List (Nat × Nat)}
        (h : pairsFrom stack' ts = .ok more) (hmore : more ⊆ found) (ho : o ∈ stack') :
        ∃ c ∈ t :: ts, c.isCloseBracket ∧ (o.index, c.index) ∈ found := by
      obtain ⟨c, hc, hclose, hpair⟩ := ih h ho
      exact ⟨c, List.mem_cons_of_mem t hc, hclose, hmore hpair⟩
    rcases pairsFrom_cons_eq_ok h with ⟨_, h⟩ | ⟨hclose, opening, stack', more, rfl, hmore, rfl⟩ |
      ⟨_, _, h⟩
    · exact hlater h (List.Subset.refl _) (List.mem_cons_of_mem t ho)
    · rcases List.mem_cons.mp ho with rfl | ho
      · exact ⟨t, List.mem_cons_self, hclose, List.mem_cons_self⟩
      · exact hlater hmore (List.subset_cons_self _ _) ho
    · exact hlater h (List.Subset.refl _) ho

/-- A pair begins with a bracket that is open already or comes later. -/
theorem exists_opening_of_mem (h : pairsFrom stack ts = .ok found) {o c : Nat}
    (hpair : (o, c) ∈ found) : ∃ t ∈ stack ++ ts, t.index = o := by
  have ho : o ∈ found.map (·.1) := List.mem_map_of_mem hpair
  rw [(pairsFrom_opening h).mem_iff] at ho
  obtain ⟨t, ht, rfl⟩ := List.mem_map.mp ho
  refine ⟨t, ?_, rfl⟩
  rcases List.mem_append.mp ht with ht | ht
  · exact List.mem_append_left _ ht
  · exact List.mem_append_right _ (List.mem_filter.mp ht).1

/-- A pair ends with a closing bracket that is still to come. -/
theorem exists_closing_of_mem (h : pairsFrom stack ts = .ok found) {o c : Nat}
    (hpair : (o, c) ∈ found) : ∃ t ∈ ts, t.isCloseBracket ∧ t.index = c := by
  have hc : c ∈ found.map (·.2) := List.mem_map_of_mem hpair
  rw [pairsFrom_closing h] at hc
  obtain ⟨t, ht, rfl⟩ := List.mem_map.mp hc
  obtain ⟨ht, hclose⟩ := List.mem_filter.mp ht
  exact ⟨t, ht, hclose, rfl⟩

/-- White space and comments have no part in the pairs. -/
theorem pairsFrom_filter_isSpace (stack ts : List Token) :
    pairsFrom stack (ts.filter (!·.isSpace)) = pairsFrom stack ts := by
  induction ts generalizing stack with
  | nil => rfl
  | cons t ts ih =>
    by_cases ht : t.isSpace
    · rw [List.filter_cons_of_neg (by simpa using ht), ih,
        pairsFrom_other (Lexeme.not_isOpenBracket_of_isSpace ht)
          (Lexeme.not_isCloseBracket_of_isSpace ht)]
    · rw [List.filter_cons_of_pos (by simpa using ht)]
      cases stack with
      | nil => simp only [pairsFrom, ih]
      | cons o stack => simp only [pairsFrom, ih]

theorem pairs_lexemes (joined : Bool) (tokens : List Token) :
    pairs ((Lexeme.ofTokens joined tokens).map (·.toToken)) = pairs tokens := by
  rw [Lexeme.map_toToken_ofTokens]
  exact pairsFrom_filter_isSpace [] tokens

end Bracket

namespace Lexeme

/-- The brackets that some lexemes leave open, innermost first; the last lexeme is given first. -/
def opened : List Lexeme → List Token
  | [] => []
  | x :: before =>
    if x.isOpenBracket then x.toToken :: opened before
    else if x.isCloseBracket then (opened before).tail
    else opened before

/-- Tokens of a file whose brackets pair as found. -/
structure Paired (ts : List Token) (found : List (Nat × Nat)) : Prop where
  indexed : Bracket.Indexed ts
  pairs : Bracket.pairs ts = .ok found

variable {ts : List Token} {found : List (Nat × Nat)} {before after s : List Lexeme} {x : Lexeme}
  {i j k : Nat}

/-! ### Pairs -/

theorem Paired.partners_iff (h : Paired ts found) :
    (Bracket.table ts.length found)[i]? = some (some j) ↔ Bracket.Partners found i j := by
  refine Bracket.table_eq_some_iff_partners (Bracket.nodup_ends h.indexed h.pairs) fun i hi => ?_
  obtain ⟨t, ht, _⟩ := (Bracket.mem_ends_iff h.indexed h.pairs).mp hi
  exact (List.getElem?_eq_some_iff.mp ht).1

theorem Paired.partners_unique (h : Paired ts found) (hj : Bracket.Partners found i j)
    (hk : Bracket.Partners found i k) : j = k := by
  have hj := h.partners_iff.mpr hj
  rw [h.partners_iff.mpr hk] at hj
  exact (Option.some.inj (Option.some.inj hj)).symm

theorem Paired.lt_of_mem (h : Paired ts found) (hpair : (i, j) ∈ found) : i < j := by
  obtain ⟨o, c, hencloses, heq⟩ := (Bracket.mem_pairs_iff_encloses h.pairs).mp hpair
  obtain ⟨before, inner, after, _, _, _, _, _, hi, hj⟩ :=
    (Bracket.matched_iff_encloses h.indexed).mpr ⟨o, c, hencloses, heq⟩
  omega

/-- What pairs with an opening bracket lies behind it. -/
theorem Paired.lt_of_partners (h : Paired ts found) {t : Token} (ht : ts[i]? = some t)
    (hopen : t.isOpenBracket) (hpair : Bracket.Partners found i j) : i < j ∧ j < ts.length := by
  have hindex {k : Nat} {c : Token} (hc : c ∈ ts) (hk : c.index = k) : ts[k]? = some c := by
    obtain ⟨l, hl⟩ := List.mem_iff_getElem?.mp hc
    rw [← hk, index_of_getElem? h.indexed hl, hl]
  rcases hpair with hpair | hpair
  · obtain ⟨c, hc, _, hj⟩ := Bracket.exists_closing_of_mem h.pairs hpair
    exact ⟨h.lt_of_mem hpair, (List.getElem?_eq_some_iff.mp (hindex hc hj)).1⟩
  · obtain ⟨c, hc, hclose, hi⟩ := Bracket.exists_closing_of_mem h.pairs hpair
    rw [hindex hc hi, Option.some.injEq] at ht
    rw [ht, Bracket.isCloseBracket_of_isOpenBracket hopen] at hclose
    contradiction

/-! ### Open brackets -/

theorem Paired.rising (h : Paired ts found) (hsplit : ofTokens false ts = before.reverse ++ s) :
    s.Pairwise (·.index < ·.index) ∧ before.Pairwise (·.index > ·.index) ∧
      ∀ x ∈ before, ∀ y ∈ s, x.index < y.index := by
  have hall := (rising_ahead h.indexed 0).pairwise
  rw [ahead_zero, hsplit] at hall
  obtain ⟨hbefore, hs, hbetween⟩ := List.pairwise_append.mp hall
  exact ⟨hs, List.pairwise_reverse.mp hbefore,
    fun x hx y hy => hbetween x (List.mem_reverse.mpr hx) y hy⟩

theorem opened_of_open (h : x.isOpenBracket) : opened (x :: before) = x.toToken :: opened before := by
  rw [opened, if_pos h]

theorem opened_of_close (h : x.isCloseBracket) : opened (x :: before) = (opened before).tail := by
  rw [opened, if_neg (by simp [Bracket.not_open_of_isCloseBracket h]), if_pos h]

theorem opened_of_other (hopen : x.isOpenBracket = false) (hclose : x.isCloseBracket = false) :
    opened (x :: before) = opened before := by
  rw [opened, if_neg (by simp [hopen]), if_neg (by simp [hclose])]

theorem opened_sublist (before : List Lexeme) :
    (opened before).Sublist (before.map (·.toToken)) := by
  induction before with
  | nil => exact List.Sublist.refl _
  | cons x before ih =>
    unfold opened
    rw [List.map_cons]
    split
    · exact ih.cons_cons _
    · split
      · exact ((List.tail_sublist _).trans ih).cons _
      · exact ih.cons _

/-- Brackets around some lexemes stay open as long as those close only their own ones. -/
theorem opened_cons_append {inside outside : List Token} (hopened : opened before = inside ++ outside)
    (hx : ¬ (inside = [] ∧ x.isCloseBracket)) : ∃ inside', opened (x :: before) = inside' ++ outside ∧
      inside'.length = nested inside.length x.toToken := by
  unfold nested
  by_cases hopen : x.isOpenBracket
  · rw [if_pos hopen, opened_of_open hopen, hopened]
    exact ⟨x.toToken :: inside, rfl, rfl⟩
  · rw [if_neg hopen]
    by_cases hclose : x.isCloseBracket
    · rw [if_pos hclose, opened_of_close hclose, hopened]
      cases inside with
      | nil => exact absurd ⟨rfl, hclose⟩ hx
      | cons o inside => exact ⟨inside, rfl, rfl⟩
    · rw [if_neg hclose, opened_of_other (by simpa using hopen) (by simpa using hclose)]
      exact ⟨inside, hopened, rfl⟩

/-- A lexeme stands at one place only. -/
theorem Paired.split_unique (h : Paired ts found)
    (hsplit : ofTokens false ts = before.reverse ++ x :: after) {before' after' : List Lexeme}
    {y : Lexeme} (hsplit' : ofTokens false ts = before'.reverse ++ y :: after')
    (hindex : x.index = y.index) : before = before' ∧ x = y ∧ after = after' := by
  have hfront {b a : List Lexeme} {z : Lexeme} (hs : ofTokens false ts = b.reverse ++ z :: a) :
      (ofTokens false ts).takeWhile (·.index < z.index) = b.reverse := by
    rw [hs, List.takeWhile_append_of_pos fun w hw => ?_, List.takeWhile_cons_of_neg (by simp),
      List.append_nil]
    simpa using (h.rising hs).2.2 w (List.mem_reverse.mp hw) z List.mem_cons_self
  have hbefore : before = before' := by
    have heq := hfront hsplit
    rw [hindex, hfront hsplit'] at heq
    exact (List.reverse_inj.mp heq).symm
  rw [hsplit, hbefore] at hsplit'
  obtain ⟨hx, hafter⟩ := List.cons.inj (List.append_cancel_left hsplit')
  exact ⟨hbefore, hx, hafter⟩

/-- Inner brackets stand behind outer ones. -/
theorem Paired.opened_pairwise (h : Paired ts found)
    (hsplit : ofTokens false ts = before.reverse ++ s) :
    (opened before).Pairwise (·.index > ·.index) := by
  refine List.Pairwise.sublist (opened_sublist before) (List.pairwise_map.mpr ?_)
  exact (h.rising hsplit).2.1

/-- Behind some lexemes the pairs are found with the brackets that those leave open. -/
theorem Paired.later (h : Paired ts found) (hsplit : ofTokens false ts = before.reverse ++ s) :
    ∃ later, Bracket.pairsFrom (opened before) (s.map (·.toToken)) = .ok later ∧ later ⊆ found ∧
      ∀ p ∈ found, p ∈ later ∨ ∃ c ∈ before, p.2 = c.index := by
  induction before generalizing s with
  | nil =>
    refine ⟨found, ?_, List.Subset.refl _, fun p hp => Or.inl hp⟩
    rw [← h.pairs, ← Bracket.pairs_lexemes false ts, hsplit]
    rfl
  | cons x before ih =>
    have hsplit' : ofTokens false ts = before.reverse ++ x :: s := by rw [hsplit]; simp
    obtain ⟨later, hlater, hsubset, hends⟩ := ih hsplit'
    have hends' (p : Nat × Nat) (hp : p ∈ found) : p ∈ later ∨ ∃ c ∈ x :: before, p.2 = c.index := by
      rcases hends p hp with hp | ⟨c, hc, heq⟩
      · exact Or.inl hp
      · exact Or.inr ⟨c, List.mem_cons_of_mem x hc, heq⟩
    rw [List.map_cons] at hlater
    rcases Bracket.pairsFrom_cons_eq_ok hlater with
      ⟨hopen, hrest⟩ | ⟨hclose, o, stack, more, hstack, hmore, rfl⟩ | ⟨hopen, hclose, hrest⟩
    · rw [opened_of_open hopen]
      exact ⟨later, hrest, hsubset, hends'⟩
    · rw [opened_of_close hclose, hstack]
      refine ⟨more, hmore, fun p hp => hsubset (List.mem_cons_of_mem _ hp), fun p hp => ?_⟩
      rcases hends' p hp with hp | hp
      · rcases List.mem_cons.mp hp with rfl | hp
        · exact Or.inr ⟨x, List.mem_cons_self, rfl⟩
        · exact Or.inl hp
      · exact Or.inr hp
    · rw [opened_of_other hopen hclose]
      exact ⟨later, hrest, hsubset, hends'⟩

/-- A closing bracket finds the bracket that it pairs with open. -/
theorem Paired.closing (h : Paired ts found)
    (hsplit : ofTokens false ts = before.reverse ++ x :: after) (hx : x.isCloseBracket) :
    ∃ o rest, opened before = o :: rest ∧ (o.index, x.index) ∈ found := by
  obtain ⟨later, hlater, hsubset, _⟩ := h.later hsplit
  rw [List.map_cons] at hlater
  rcases Bracket.pairsFrom_cons_eq_ok hlater with
    ⟨hopen, _⟩ | ⟨_, o, stack, more, hstack, _, rfl⟩ | ⟨_, hclose, _⟩
  · rw [Bracket.not_open_of_isCloseBracket hx] at hopen
    contradiction
  · exact ⟨o, stack, hstack, hsubset List.mem_cons_self⟩
  · rw [hx] at hclose
    contradiction

/-- The brackets open in front of a lexeme are those whose pair lies around it. -/
theorem Paired.mem_opened_iff (h : Paired ts found)
    (hsplit : ofTokens false ts = before.reverse ++ x :: after) :
    k ∈ (opened before).map (·.index) ↔ ∃ e, (k, e) ∈ found ∧ k < x.index ∧ x.index ≤ e := by
  obtain ⟨later, hlater, hsubset, hends⟩ := h.later hsplit
  obtain ⟨hafter, _, hbetween⟩ := h.rising hsplit
  have hbefore (y : Lexeme) (hy : y ∈ before) : y.index < x.index :=
    hbetween y hy x List.mem_cons_self
  have hbehind (t : Token) (ht : t ∈ (x :: after).map (·.toToken)) : x.index ≤ t.index := by
    obtain ⟨y, hy, rfl⟩ := List.mem_map.mp ht
    rcases List.mem_cons.mp hy with rfl | hy
    · exact Nat.le_refl _
    · exact Nat.le_of_lt ((List.pairwise_cons.mp hafter).1 y hy)
  constructor
  · intro hk
    obtain ⟨o, ho, rfl⟩ := List.mem_map.mp hk
    obtain ⟨y, hy, heq⟩ := List.mem_map.mp ((opened_sublist before).subset ho)
    obtain ⟨c, hc, _, hpair⟩ := Bracket.exists_closing_of_mem_stack hlater ho
    refine ⟨c.index, hsubset hpair, ?_, hbehind c hc⟩
    rw [← heq]
    exact hbefore y hy
  · rintro ⟨e, hpair, hlt, hle⟩
    rcases hends _ hpair with hpair | ⟨c, hc, heq⟩
    · obtain ⟨t, ht, rfl⟩ := Bracket.exists_opening_of_mem hlater hpair
      rcases List.mem_append.mp ht with ht | ht
      · exact List.mem_map_of_mem ht
      · exact absurd (hbehind t ht) (Nat.not_le_of_lt hlt)
    · have := hbefore c hc
      exact absurd hle (by omega)

/-- Nothing is open at the end. -/
theorem Paired.opened_eq_nil (h : Paired ts found) : opened (ofTokens false ts).reverse = [] := by
  have hsplit : ofTokens false ts = (ofTokens false ts).reverse.reverse ++ [] := by simp
  obtain ⟨later, hlater, _⟩ := h.later hsplit
  cases hopened : opened (ofTokens false ts).reverse with
  | nil => rfl
  | cons o stack =>
    rw [hopened] at hlater
    contradiction

/-- A closing bracket of a pair, with the lexemes around it. -/
theorem Paired.exists_split_closing (h : Paired ts found) (hpair : (i, j) ∈ found) :
    ∃ (before : List Lexeme) (x : Lexeme) (after : List Lexeme),
      ofTokens false ts = before.reverse ++ x :: after ∧ x.isCloseBracket ∧
      x.index = j := by
  obtain ⟨t, ht, hclose, rfl⟩ := Bracket.exists_closing_of_mem
    ((Bracket.pairs_lexemes false ts).trans h.pairs) hpair
  obtain ⟨x, hx, rfl⟩ := List.mem_map.mp ht
  obtain ⟨before, after, hsplit⟩ := List.append_of_mem hx
  exact ⟨before.reverse, x, after, by rw [hsplit, List.reverse_reverse], hclose, rfl⟩

/-- So is the lexeme that begins a pair a bracket. -/
theorem Paired.exists_opening (h : Paired ts found) (hpair : (i, j) ∈ found) :
    ∃ x ∈ ofTokens false ts, x.isOpenBracket ∧ x.index = i := by
  have hi : i ∈ found.map (·.1) := List.mem_map_of_mem hpair
  rw [(Bracket.pairsFrom_opening ((Bracket.pairs_lexemes false ts).trans h.pairs)).mem_iff] at hi
  obtain ⟨t, ht, rfl⟩ := List.mem_map.mp hi
  obtain ⟨ht, hopen⟩ := List.mem_filter.mp (List.mem_append.mp ht |>.resolve_left nofun)
  obtain ⟨x, hx, rfl⟩ := List.mem_map.mp ht
  exact ⟨x, hx, hopen, rfl⟩

/-- A pair that begins inside another one ends inside it. -/
theorem Paired.nested (h : Paired ts found) {o e : Nat} (houter : (o, e) ∈ found)
    (hinner : (i, j) ∈ found) (hoi : o < i) (hie : i < e) : j < e := by
  refine Nat.lt_of_not_le fun hle => ?_
  obtain ⟨before, x, after, hsplit, hclose, rfl⟩ := h.exists_split_closing houter
  obtain ⟨top, rest, hopened, htop⟩ := h.closing hsplit hclose
  have htop : top.index = o := h.partners_unique (Or.inr htop) (Or.inr houter)
  have hi : i ∈ (opened before).map (·.index) :=
    (h.mem_opened_iff hsplit).mpr ⟨j, hinner, hie, hle⟩
  have hpairwise := h.opened_pairwise hsplit
  rw [hopened] at hi hpairwise
  -- the bracket that `x` closes is the innermost one, but `i` would be open inside it
  obtain ⟨t, ht, rfl⟩ := List.mem_map.mp hi
  rcases List.mem_cons.mp ht with rfl | ht
  · omega
  · have := (List.pairwise_cons.mp hpairwise).1 t ht
    omega

/-- So does a pair that begins with a bracket of another one. -/
theorem Paired.le_of_between (h : Paired ts found) {o e : Nat} (houter : (o, e) ∈ found)
    (hinner : (i, j) ∈ found) (hoi : o ≤ i) (hie : i ≤ e) : j ≤ e := by
  rcases Nat.lt_or_eq_of_le hoi with hoi | rfl
  · rcases Nat.lt_or_eq_of_le hie with hie | rfl
    · exact Nat.le_of_lt (h.nested houter hinner hoi hie)
    · have heq := h.partners_unique (Or.inl hinner) (Or.inr houter)
      have := h.lt_of_mem hinner
      omega
  · exact Nat.le_of_eq (h.partners_unique (Or.inl hinner) (Or.inl houter))

end Lexeme

end PhpLint
