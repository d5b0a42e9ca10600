import PhpLint.Model.SourceFile
import PhpLint.Proofs.Except

/-!
Brackets pair exactly if they nest. The pairs are then those of the nesting, and otherwise the
first closing bracket that does not fit is to blame, or the innermost opening one left at the end.
-/
namespace PhpLint.Bracket

/-! ### Nesting -/

/-- An opening bracket and a closing one of its kind. -/
structure Fits (opening closing : Token) : Prop where
  isOpen : opening.isOpenBracket
  isClose : closing.isCloseBracket
  kind : Token.closingBracket opening.text = some closing.text

/-- Tokens whose brackets nest over all kinds. -/
inductive Nested : List Token → Prop where
  | nil : Nested []
  | other {t : Token} {ts : List Token} (hopen : t.isOpenBracket = false)
      (hclose : t.isCloseBracket = false) (h : Nested ts) : Nested (t :: ts)
  | pair {o c : Token} {inner rest : List Token} (hfits : Fits o c) (hinner : Nested inner)
      (hrest : Nested rest) : Nested (o :: inner ++ c :: rest)

/-- Tokens whose closing brackets all fit leave some brackets open, the innermost first. -/
inductive Leaves : List Token → List Token → Prop where
  | nested {ts : List Token} (h : Nested ts) : Leaves ts []
  | opening {ts inner stack : List Token} {o : Token} (h : Leaves ts stack)
      (hopen : o.isOpenBracket) (hinner : Nested inner) : Leaves (ts ++ o :: inner) (o :: stack)

/-- Tokens hold an opening bracket and the closing one that belongs to it. -/
def Encloses (tokens : List Token) (o c : Token) : Prop :=
  ∃ before inner after, tokens = before ++ o :: inner ++ c :: after ∧ Fits o c ∧ Nested inner

/-- The tokens at two positions are an opening bracket and the closing one that belongs to it. -/
def Matched (tokens : List Token) (i j : Nat) : Prop :=
  ∃ (before inner after : List Token) (o c : Token),
    tokens = before ++ o :: inner ++ c :: after ∧ Fits o c ∧ Nested inner ∧
      before.length = i ∧ before.length + inner.length + 1 = j

/-- What a mismatch says about the tokens in which it is found. -/
def Mismatch.Describes (tokens : List Token) : Mismatch → Prop
  | .unmatched t => ∃ before after, tokens = before ++ t :: after ∧ t.isCloseBracket ∧
      Leaves before []
  | .mismatched t o => ∃ before after stack, tokens = before ++ t :: after ∧ t.isCloseBracket ∧
      Leaves before (o :: stack) ∧ ¬ Fits o t
  | .unclosed o => ∃ stack, Leaves tokens (o :: stack)

theorem Encloses.extend {ts : List Token} {o c : Token} (h : Encloses ts o c)
    (before after : List Token) : Encloses (before ++ ts ++ after) o c := by
  obtain ⟨before', inner, after', rfl, hfits, hinner⟩ := h
  exact ⟨before ++ before', inner, after' ++ after, by simp, hfits, hinner⟩

theorem Nested.append {ts us : List Token} (ht : Nested ts) (hu : Nested us) :
    Nested (ts ++ us) := by
  induction ht with
  | nil => exact hu
  | other hopen hclose _ ih => exact ih.other hopen hclose
  | @pair o c inner rest hfits hinner _ _ ih =>
    rw [List.append_assoc, List.cons_append]
    exact Nested.pair hfits hinner ih

theorem Leaves.append {ts us stack : List Token} (h : Leaves ts stack) (hu : Nested us) :
    Leaves (ts ++ us) stack := by
  cases h with
  | nested ht => exact .nested (ht.append hu)
  | opening h hopen hinner =>
    rw [List.append_assoc, List.cons_append]
    exact h.opening hopen (hinner.append hu)

/-- The stack loses its innermost bracket to a closing one that fits. -/
theorem Leaves.close {ts stack : List Token} {o c : Token} (h : Leaves ts (o :: stack))
    (hfits : Fits o c) : Leaves (ts ++ [c]) stack := by
  cases h with
  | @opening ts inner _ _ h hopen hinner =>
    rw [List.append_assoc]
    exact h.append (Nested.pair hfits hinner .nil)

theorem Leaves.isOpen {ts stack : List Token} (h : Leaves ts stack) :
    ∀ o ∈ stack, o.isOpenBracket := by
  induction h with
  | nested => simp
  | opening _ hopen _ ih => simpa using ⟨hopen, ih⟩

/-- No token is an opening and a closing bracket at once. -/
theorem isCloseBracket_of_isOpenBracket {t : Token} (h : t.isOpenBracket) :
    t.isCloseBracket = false := by
  unfold Token.isOpenBracket at h
  unfold Token.isCloseBracket
  grind

/-! ### The pass over the tokens -/

section Pass

variable {stack ts : List Token} {o t : Token}

theorem pairsFrom_open (h : t.isOpenBracket) :
    pairsFrom stack (t :: ts) = pairsFrom (t :: stack) ts := by
  cases stack <;> rw [pairsFrom, if_pos h]

theorem pairsFrom_other (hopen : t.isOpenBracket = false) (hclose : t.isCloseBracket = false) :
    pairsFrom stack (t :: ts) = pairsFrom stack ts := by
  cases stack <;> simp [pairsFrom, hopen, hclose]

theorem not_open_of_isCloseBracket (h : t.isCloseBracket) : t.isOpenBracket = false := by
  rw [Bool.eq_false_iff]
  intro hopen
  rw [isCloseBracket_of_isOpenBracket hopen] at h
  contradiction

theorem exists_closingBracket (h : t.isOpenBracket) : ∃ c, Token.closingBracket t.text = some c := by
  unfold Token.isOpenBracket at h
  simp only [Bool.and_eq_true, Bool.or_eq_true, beq_iff_eq] at h
  rcases h.2 with (htext | htext) | htext <;> rw [htext] <;> exact ⟨_, rfl⟩

theorem pairsFrom_unmatched (h : t.isCloseBracket) :
    pairsFrom [] (t :: ts) = .error (.unmatched t) := by
  simp [pairsFrom, not_open_of_isCloseBracket h, h]

theorem pairsFrom_fits (h : Fits o t) :
    pairsFrom (o :: stack) (t :: ts) = (pairsFrom stack ts).map ((o.index, t.index) :: ·) := by
  simp only [pairsFrom, not_open_of_isCloseBracket h.isClose, h.isClose, h.kind, beq_self_eq_true,
    Bool.false_eq_true, if_false, if_true]
  cases pairsFrom stack ts <;> rfl

theorem pairsFrom_mismatched (ho : o.isOpenBracket) (ht : t.isCloseBracket) (h : ¬ Fits o t) :
    pairsFrom (o :: stack) (t :: ts) = .error (.mismatched t o) := by
  have hkind : Token.closingBracket o.text ≠ some t.text := fun hk => h ⟨ho, ht, hk⟩
  simp [pairsFrom, not_open_of_isCloseBracket ht, ht, hkind]

end Pass

/-- Nested tokens in front of others add their own pairs and leave the stack as it is. -/
theorem pairsFrom_nested_append {ts : List Token} (h : Nested ts) :
    ∃ found, (∀ stack rest, pairsFrom stack (ts ++ rest) = (pairsFrom stack rest).map (found ++ ·)) ∧
      ∀ p ∈ found, ∃ o c, Encloses ts o c ∧ p = (o.index, c.index) := by
  induction h with
  | nil =>
    refine ⟨[], fun stack rest => ?_, by simp⟩
    rw [List.nil_append]
    cases pairsFrom stack rest <;> rfl
  | @other t ts hopen hclose _ ih =>
    obtain ⟨found, ih, hfound⟩ := ih
    refine ⟨found, fun stack rest => ?_, fun p hp => ?_⟩
    · rw [List.cons_append, pairsFrom_other hopen hclose, ih]
    · obtain ⟨o, c, h, rfl⟩ := hfound p hp
      exact ⟨o, c, by simpa using h.extend [t] [], rfl⟩
  | @pair o c inner rest hfits hinner _ ihinner ihrest =>
    obtain ⟨found, ihinner, hfound⟩ := ihinner
    obtain ⟨more, ihrest, hmore⟩ := ihrest
    refine ⟨found ++ (o.index, c.index) :: more, fun stack others => ?_, fun p hp => ?_⟩
    · rw [List.append_assoc, List.cons_append, List.cons_append, pairsFrom_open hfits.isOpen,
        ihinner, pairsFrom_fits hfits, ihrest]
      cases pairsFrom stack others <;> simp [Except.map]
    · rcases List.mem_append.mp hp with hp | hp
      · obtain ⟨o', c', h, rfl⟩ := hfound p hp
        exact ⟨o', c', by simpa using h.extend [o] (c :: rest), rfl⟩
      rcases List.mem_cons.mp hp with rfl | hp
      · exact ⟨o, c, ⟨[], inner, rest, rfl, hfits, hinner⟩, rfl⟩
      · obtain ⟨o', c', h, rfl⟩ := hmore p hp
        exact ⟨o', c', by simpa using h.extend (o :: inner ++ [c]) [], rfl⟩

theorem pairsFrom_leaves_append {ts stack : List Token} (h : Leaves ts stack) :
    ∃ found, ∀ rest, pairsFrom [] (ts ++ rest) = (pairsFrom stack rest).map (found ++ ·) := by
  induction h with
  | nested h =>
    obtain ⟨found, h, _⟩ := pairsFrom_nested_append h
    exact ⟨found, h []⟩
  | @opening ts inner stack o _ hopen hinner ih =>
    obtain ⟨found, ih⟩ := ih
    obtain ⟨more, hinner, _⟩ := pairsFrom_nested_append hinner
    refine ⟨found ++ more, fun rest => ?_⟩
    rw [List.append_assoc, List.cons_append, ih, pairsFrom_open hopen, hinner]
    cases pairsFrom (o :: stack) rest <;> simp [Except.map]

/-- What the pass finds after a beginning that leaves the stack open, of all tokens. -/
theorem pairsFrom_sound {before stack ts : List Token} (h : Leaves before stack) :
    match pairsFrom stack ts with
    | .ok _ => Nested (before ++ ts)
    | .error m => m.Describes (before ++ ts) := by
  induction ts generalizing before stack with
  | nil =>
    rw [List.append_nil]
    cases h with
    | nested h => exact h
    | @opening ts inner stack o h hopen hinner => exact ⟨stack, h.opening hopen hinner⟩
  | cons t ts ih =>
    have hassoc : before ++ t :: ts = before ++ [t] ++ ts := by simp
    by_cases hopen : t.isOpenBracket
    · rw [pairsFrom_open hopen, hassoc]
      exact ih (h.opening hopen .nil)
    · have hopen : t.isOpenBracket = false := by simpa using hopen
      by_cases hclose : t.isCloseBracket
      · cases stack with
        | nil =>
          rw [pairsFrom_unmatched hclose]
          exact ⟨before, ts, rfl, hclose, h⟩
        | cons o stack =>
          by_cases hfits : Fits o t
          · have hrest := ih (h.close hfits)
            rw [pairsFrom_fits hfits, hassoc]
            cases hp : pairsFrom stack ts <;> rw [hp] at hrest <;> exact hrest
          · rw [pairsFrom_mismatched (h.isOpen o (by simp)) hclose hfits]
            exact ⟨before, ts, stack, rfl, hclose, h, hfits⟩
      · have hclose : t.isCloseBracket = false := by simpa using hclose
        rw [pairsFrom_other hopen hclose, hassoc]
        exact ih (h.append (.other hopen hclose .nil))

/-- Brackets pair exactly if they nest. -/
theorem pairs_eq_ok_iff_nested {tokens : List Token} :
    (∃ found, pairs tokens = .ok found) ↔ Nested tokens := by
  constructor
  · rintro ⟨found, h⟩
    have hsound := @pairsFrom_sound [] [] tokens (.nested .nil)
    unfold pairs at h
    rwa [h] at hsound
  · intro h
    obtain ⟨found, h, _⟩ := pairsFrom_nested_append h
    have hall := h [] []
    rw [List.append_nil] at hall
    exact ⟨_, hall⟩

theorem pairs_eq_error_iff_describes {tokens : List Token} {m : Mismatch} :
    pairs tokens = .error m ↔ m.Describes tokens := by
  unfold pairs
  constructor
  · intro h
    have hsound := @pairsFrom_sound [] [] tokens (.nested .nil)
    rwa [h] at hsound
  · intro h
    cases m with
    | unmatched t =>
      obtain ⟨before, after, rfl, hclose, hbefore⟩ := h
      obtain ⟨found, hbefore⟩ := pairsFrom_leaves_append hbefore
      rw [hbefore, pairsFrom_unmatched hclose]
      rfl
    | mismatched t o =>
      obtain ⟨before, after, stack, rfl, hclose, hbefore, hfits⟩ := h
      have ho := hbefore.isOpen o (by simp)
      obtain ⟨found, hbefore⟩ := pairsFrom_leaves_append hbefore
      rw [hbefore, pairsFrom_mismatched ho hclose hfits]
      rfl
    | unclosed o =>
      obtain ⟨stack, h⟩ := h
      obtain ⟨found, h⟩ := pairsFrom_leaves_append h
      have hall := h []
      rw [List.append_nil] at hall
      rw [hall]
      rfl

/-! ### The pairs -/

/-- How the pass goes on after one token, if it comes to an end. -/
theorem pairsFrom_cons_eq_ok {stack ts : List Token} {t : Token} {found : List (Nat × Nat)}
    (h : pairsFrom stack (t :: ts) = .ok found) :
    (t.isOpenBracket ∧ pairsFrom (t :: stack) ts = .ok found) ∨
    (t.isCloseBracket ∧ ∃ o stack' more, stack = o :: stack' ∧ pairsFrom stack' ts = .ok more ∧
      found = (o.index, t.index) :: more) ∨
    (t.isOpenBracket = false ∧ t.isCloseBracket = false ∧ pairsFrom stack ts = .ok found) := by
  by_cases hopen : t.isOpenBracket
  · rw [pairsFrom_open hopen] at h
    exact Or.inl ⟨hopen, h⟩
  · have hopen : t.isOpenBracket = false := by simpa using hopen
    by_cases hclose : t.isCloseBracket
    · right; left
      cases stack with
      | nil =>
        rw [pairsFrom_unmatched hclose] at h
        contradiction
      | cons o stack =>
        simp only [pairsFrom, hopen, hclose, Bool.false_eq_true, if_false, if_true] at h
        split at h
        · obtain ⟨more, hmore, hfound⟩ := except_bind_eq_ok.mp h
          exact ⟨hclose, o, stack, more, rfl, hmore, (except_pure_eq_ok.mp hfound).symm⟩
        · contradiction
    · have hclose : t.isCloseBracket = false := by simpa using hclose
      rw [pairsFrom_other hopen hclose] at h
      exact Or.inr (Or.inr ⟨hopen, hclose, h⟩)

/-- Of the pairs of all tokens, those that end behind some beginning are found last. -/
theorem pairsFrom_append_eq_ok {stack before rest : List Token} {found : List (Nat × Nat)}
    (h : pairsFrom stack (before ++ rest) = .ok found) :
    ∃ stack' earlier later, pairsFrom stack' rest = .ok later ∧ found = earlier ++ later := by
  induction before generalizing stack found with
  | nil => exact ⟨stack, [], found, h, rfl⟩
  | cons t before ih =>
    rcases pairsFrom_cons_eq_ok h with ⟨_, h⟩ | ⟨_, o, stack', more, rfl, hmore, rfl⟩ | ⟨_, _, h⟩
    · exact ih h
    · obtain ⟨stack'', earlier, later, hlater, rfl⟩ := ih hmore
      exact ⟨stack'', (o.index, t.index) :: earlier, later, hlater, rfl⟩
    · exact ih h

/-- The pairs of nested tokens are those of the brackets that belong together. -/
theorem mem_pairs_iff_encloses {tokens : List Token} {found : List (Nat × Nat)}
    (h : pairs tokens = .ok found) {p : Nat × Nat} :
    p ∈ found ↔ ∃ o c, Encloses tokens o c ∧ p = (o.index, c.index) := by
  unfold pairs at h
  constructor
  · obtain ⟨found', happend, hfound⟩ := pairsFrom_nested_append (pairs_eq_ok_iff_nested.mp ⟨_, h⟩)
    have hall := happend [] []
    rw [List.append_nil, h, pairsFrom] at hall
    injection hall with hall
    rw [hall]
    simpa using hfound p
  · rintro ⟨o, c, ⟨before, inner, after, rfl, hfits, hinner⟩, rfl⟩
    rw [List.append_assoc] at h
    obtain ⟨stack, earlier, later, hlater, rfl⟩ := pairsFrom_append_eq_ok h
    obtain ⟨more, hmore, _⟩ := pairsFrom_nested_append hinner
    rw [List.cons_append, pairsFrom_open hfits.isOpen, hmore, pairsFrom_fits hfits] at hlater
    cases hrest : pairsFrom stack after with
    | error m =>
      rw [hrest] at hlater
      contradiction
    | ok rest =>
      rw [hrest] at hlater
      injection hlater with hlater
      simp [← hlater]

/-- Every closing bracket ends one pair, in the order of the tokens. -/
theorem pairsFrom_closing {stack ts : List Token} {found : List (Nat × Nat)}
    (h : pairsFrom stack ts = .ok found) :
    found.map (·.2) = (ts.filter (·.isCloseBracket)).map (·.index) := by
  induction ts generalizing stack found with
  | nil =>
    cases stack with
    | nil => cases h; rfl
    | cons o stack => contradiction
  | cons t ts ih =>
    rcases pairsFrom_cons_eq_ok h with ⟨hopen, h⟩ | ⟨hclose, o, stack', more, rfl, hmore, rfl⟩ |
      ⟨_, hclose, h⟩
    · rw [List.filter_cons_of_neg (by simp [isCloseBracket_of_isOpenBracket hopen]), ih h]
    · rw [List.filter_cons_of_pos hclose, List.map_cons, List.map_cons, ih hmore]
    · rw [List.filter_cons_of_neg (by simp [hclose]), ih h]

/-- Every opening bracket begins one pair, and so does every bracket that was open before. -/
theorem pairsFrom_opening {stack ts : List Token} {found : List (Nat × Nat)}
    (h : pairsFrom stack ts = .ok found) :
    (found.map (·.1)).Perm ((stack ++ ts.filter (·.isOpenBracket)).map (·.index)) := by
  induction ts generalizing stack found with
  | nil =>
    cases stack with
    | nil => cases h; rfl
    | cons o stack => contradiction
  | cons t ts ih =>
    rcases pairsFrom_cons_eq_ok h with ⟨hopen, h⟩ | ⟨hclose, o, stack', more, rfl, hmore, rfl⟩ |
      ⟨hopen, _, h⟩
    · rw [List.filter_cons_of_pos hopen]
      exact (ih h).trans (List.perm_middle.symm.map _)
    · rw [List.filter_cons_of_neg (by simp [not_open_of_isCloseBracket hclose]), List.map_cons,
        List.cons_append, List.map_cons]
      exact (ih hmore).cons _
    · rw [List.filter_cons_of_neg (by simp [hopen])]
      exact ih h

/-! ### The table -/

/-- Two positions that a list of pairs puts together. -/
def Partners (found : List (Nat × Nat)) (i j : Nat) : Prop :=
  (i, j) ∈ found ∨ (j, i) ∈ found

/-- All positions of some pairs. -/
def ends (found : List (Nat × Nat)) : List Nat :=
  found.flatMap fun p => [p.1, p.2]

@[simp] theorem ends_cons (p : Nat × Nat) (found : List (Nat × Nat)) :
    ends (p :: found) = p.1 :: p.2 :: ends found := rfl

theorem Partners.mem_ends {found : List (Nat × Nat)} {i j : Nat} (h : Partners found i j) :
    i ∈ ends found := by
  rcases h with h | h
  · exact List.mem_flatMap.mpr ⟨_, h, by simp⟩
  · exact List.mem_flatMap.mpr ⟨_, h, by simp⟩

theorem exists_partners_of_mem_ends {found : List (Nat × Nat)} {i : Nat} (h : i ∈ ends found) :
    ∃ j, Partners found i j := by
  obtain ⟨p, hp, hi⟩ := List.mem_flatMap.mp h
  rcases List.mem_cons.mp hi with rfl | hi
  · exact ⟨p.2, Or.inl hp⟩
  · rw [List.mem_singleton] at hi
    subst hi
    exact ⟨p.1, Or.inr hp⟩

/-- Writes both ends of a pair. -/
private def enter (a : Array (Option Nat)) (p : Nat × Nat) : Array (Option Nat) :=
  (a.setIfInBounds p.1 (some p.2)).setIfInBounds p.2 (some p.1)

private theorem foldl_enter_of_not_mem {found : List (Nat × Nat)} {a : Array (Option Nat)} {i : Nat}
    (h : i ∉ ends found) : (found.foldl enter a)[i]? = a[i]? := by
  induction found generalizing a with
  | nil => rfl
  | cons p found ih =>
    rw [ends_cons, List.mem_cons, List.mem_cons, not_or, not_or] at h
    rw [List.foldl_cons, ih h.2.2, enter, Array.getElem?_setIfInBounds_ne (Ne.symm h.2.1),
      Array.getElem?_setIfInBounds_ne (Ne.symm h.1)]

private theorem foldl_enter_of_partners {found : List (Nat × Nat)} {a : Array (Option Nat)}
    {i j : Nat} (hnodup : (ends found).Nodup) (hi : i < a.size) (h : Partners found i j) :
    (found.foldl enter a)[i]? = some (some j) := by
  induction found generalizing a with
  | nil => simp [Partners] at h
  | cons p found ih =>
    rw [ends_cons, List.nodup_cons, List.nodup_cons, List.mem_cons, not_or] at hnodup
    obtain ⟨⟨hne, hfirst⟩, hsecond, hnodup⟩ := hnodup
    rw [List.foldl_cons]
    have hsize : i < (enter a p).size := by simpa [enter] using hi
    -- the pair in front is not written over, for later pairs have other ends
    rcases h with h | h <;> rcases List.mem_cons.mp h with rfl | h
    · rw [foldl_enter_of_not_mem hfirst, enter, Array.getElem?_setIfInBounds_ne (Ne.symm hne),
        Array.getElem?_setIfInBounds_self_of_lt hi]
    · exact ih hnodup hsize (Or.inl h)
    · rw [foldl_enter_of_not_mem hsecond, enter, Array.getElem?_setIfInBounds_self_of_lt]
      simpa using hi
    · exact ih hnodup hsize (Or.inr h)

theorem size_table (size : Nat) (found : List (Nat × Nat)) : (table size found).size = size := by
  have hfold : ∀ a : Array (Option Nat), (found.foldl enter a).size = a.size := by
    induction found with
    | nil => exact fun a => rfl
    | cons p found ih =>
      intro a
      rw [List.foldl_cons, ih, enter, Array.size_setIfInBounds, Array.size_setIfInBounds]
  exact (hfold _).trans Array.size_replicate

/-- The table holds the pairs in both directions, if no position is in two of them. -/
theorem table_eq_some_iff_partners {size : Nat} {found : List (Nat × Nat)}
    (hnodup : (ends found).Nodup) (hlt : ∀ i ∈ ends found, i < size) {i j : Nat} :
    (table size found)[i]? = some (some j) ↔ Partners found i j := by
  change (found.foldl enter (Array.replicate size none))[i]? = _ ↔ _
  constructor
  · intro h
    by_cases hi : i ∈ ends found
    · obtain ⟨k, hk⟩ := exists_partners_of_mem_ends hi
      rw [foldl_enter_of_partners hnodup (by simpa using hlt i hi) hk] at h
      cases h
      exact hk
    · rw [foldl_enter_of_not_mem hi, Array.getElem?_replicate] at h
      split at h <;> cases h
  · intro h
    exact foldl_enter_of_partners hnodup (by simpa using hlt i h.mem_ends) h

/-! ### Tokens that know their positions -/

/-- Every token knows its position in the list. -/
def Indexed (tokens : List Token) : Prop :=
  ∀ i, (h : i < tokens.length) → tokens[i].index = i

theorem Indexed.map_index {tokens : List Token} (h : Indexed tokens) :
    tokens.map (·.index) = List.range tokens.length := by
  apply List.ext_getElem
  · simp
  · intro i hi _
    rw [List.getElem_map, List.getElem_range]
    exact h i (by simpa using hi)

theorem Indexed.nodup {tokens : List Token} (h : Indexed tokens) :
    (tokens.map (·.index)).Nodup := by
  rw [h.map_index]
  exact List.nodup_range

theorem Indexed.index_append {before after : List Token} {t : Token}
    (h : Indexed (before ++ t :: after)) : t.index = before.length := by
  simpa using h before.length (by simp)

/-- Brackets that belong together by their positions do so by the positions they know. -/
theorem matched_iff_encloses {tokens : List Token} (h : Indexed tokens) {i j : Nat} :
    Matched tokens i j ↔ ∃ o c, Encloses tokens o c ∧ (i, j) = (o.index, c.index) := by
  have hindex {before inner after : List Token} {o c : Token}
      (heq : tokens = before ++ o :: inner ++ c :: after) :
      o.index = before.length ∧ c.index = before.length + inner.length + 1 := by
    have hopening : Indexed (before ++ o :: (inner ++ c :: after)) := by simpa [heq] using h
    have hclosing : Indexed ((before ++ o :: inner) ++ c :: after) := heq ▸ h
    refine ⟨hopening.index_append, ?_⟩
    rw [hclosing.index_append, List.length_append, List.length_cons, Nat.add_assoc]
  constructor
  · rintro ⟨before, inner, after, o, c, heq, hfits, hinner, rfl, rfl⟩
    obtain ⟨ho, hc⟩ := hindex heq
    exact ⟨o, c, ⟨before, inner, after, heq, hfits, hinner⟩, by rw [ho, hc]⟩
  · rintro ⟨o, c, ⟨before, inner, after, heq, hfits, hinner⟩, hp⟩
    obtain ⟨ho, hc⟩ := hindex heq
    rw [Prod.mk.injEq, ho, hc] at hp
    exact ⟨before, inner, after, o, c, heq, hfits, hinner, hp.1.symm, hp.2.symm⟩

private theorem ends_perm (found : List (Nat × Nat)) :
    (ends found).Perm (found.map (·.1) ++ found.map (·.2)) := by
  induction found with
  | nil => exact .nil
  | cons p found ih =>
    rw [ends_cons, List.map_cons, List.map_cons, List.cons_append]
    exact ((ih.cons p.2).trans List.perm_middle.symm).cons p.1

private theorem filter_brackets_perm (ts : List Token) :
    (ts.filter (·.isOpenBracket) ++ ts.filter (·.isCloseBracket)).Perm
      (ts.filter fun t => t.isOpenBracket || t.isCloseBracket) := by
  induction ts with
  | nil => exact .nil
  | cons t ts ih =>
    by_cases hopen : t.isOpenBracket
    · simpa [hopen, isCloseBracket_of_isOpenBracket hopen] using ih
    · by_cases hclose : t.isCloseBracket
      · simpa [hopen, hclose] using List.perm_middle.trans (ih.cons t)
      · simpa [hopen, hclose] using ih

/-- The ends of all pairs are the positions of the brackets. -/
theorem ends_perm_brackets {tokens : List Token} {found : List (Nat × Nat)}
    (h : pairs tokens = .ok found) : (ends found).Perm
      ((tokens.filter fun t => t.isOpenBracket || t.isCloseBracket).map (·.index)) := by
  apply (ends_perm found).trans
  rw [pairsFrom_closing h]
  apply ((pairsFrom_opening h).append_right _).trans
  rw [List.nil_append, ← List.map_append]
  exact (filter_brackets_perm tokens).map _

theorem nodup_ends {tokens : List Token} {found : List (Nat × Nat)} (hindexed : Indexed tokens)
    (h : pairs tokens = .ok found) : (ends found).Nodup :=
  (ends_perm_brackets h).nodup_iff.mpr (hindexed.nodup.sublist (List.filter_sublist.map _))

theorem mem_ends_iff {tokens : List Token} {found : List (Nat × Nat)} (hindexed : Indexed tokens)
    (h : pairs tokens = .ok found) {i : Nat} :
    i ∈ ends found ↔
      ∃ t, tokens[i]? = some t ∧ (t.isOpenBracket ∨ t.isCloseBracket) := by
  rw [(ends_perm_brackets h).mem_iff, List.mem_map]
  constructor
  · rintro ⟨t, ht, rfl⟩
    obtain ⟨ht, hbracket⟩ := List.mem_filter.mp ht
    obtain ⟨k, hk, rfl⟩ := List.mem_iff_getElem.mp ht
    rw [hindexed k hk]
    exact ⟨tokens[k], List.getElem?_eq_getElem hk, by simpa using hbracket⟩
  · rintro ⟨t, ht, hbracket⟩
    obtain ⟨hi, rfl⟩ := List.getElem?_eq_some_iff.mp ht
    exact ⟨tokens[i], List.mem_filter.mpr ⟨List.getElem_mem hi, by simpa using hbracket⟩,
      hindexed i hi⟩

/-! ### The outline of a file -/

/-- A table that holds exactly the pairs of brackets that belong together, in both directions. -/
structure IsMatching (brackets : Array (Option Nat)) (tokens : List Token) : Prop where
  size : brackets.size = tokens.length
  partner : ∀ i j : Nat, brackets[i]? = some (some j) ↔ Matched tokens i j ∨ Matched tokens j i
  involution : ∀ i j : Nat, brackets[i]? = some (some j) → i ≠ j ∧ brackets[j]? = some (some i)
  bracket : ∀ i : Nat, (∃ j, brackets[i]? = some (some j)) ↔
    ∃ t, tokens[i]? = some t ∧ (t.isOpenBracket ∨ t.isCloseBracket)

theorem isMatching_table {tokens : List Token} {found : List (Nat × Nat)}
    (hindexed : Indexed tokens) (h : pairs tokens = .ok found) :
    IsMatching (table tokens.length found) tokens := by
  have hnodup := nodup_ends hindexed h
  have hlt : ∀ i ∈ ends found, i < tokens.length := by
    intro i hi
    obtain ⟨t, ht, _⟩ := (mem_ends_iff hindexed h).mp hi
    exact (List.getElem?_eq_some_iff.mp ht).1
  have htable (i j : Nat) := table_eq_some_iff_partners (i := i) (j := j) hnodup hlt
  have hpair (i j : Nat) : (i, j) ∈ found ↔ Matched tokens i j := by
    rw [mem_pairs_iff_encloses h, matched_iff_encloses hindexed]
  refine ⟨size_table _ _, ?_, ?_, ?_⟩
  · intro i j
    rw [htable, Partners, hpair, hpair]
  · intro i j hij
    rw [htable] at hij
    refine ⟨?_, (htable j i).mpr hij.symm⟩
    rintro rfl
    have hmatched : Matched tokens i i := (hpair i i).mp (or_self_iff.mp hij)
    obtain ⟨before, inner, _, _, _, _, _, _, hi, hj⟩ := hmatched
    omega
  · intro i
    rw [← mem_ends_iff hindexed h]
    constructor
    · rintro ⟨j, hj⟩
      exact ((htable i j).mp hj).mem_ends
    · intro hi
      obtain ⟨j, hj⟩ := exists_partners_of_mem_ends hi
      exact ⟨j, (htable i j).mpr hj⟩

/-- The outline has its brackets from their pairs; nothing else can fail. -/
theorem ofTokens_eq_ok {tokens : List Token} {outline : Outline}
    (h : Outline.ofTokens tokens = .ok outline) :
    ∃ found, pairs tokens = .ok found ∧ outline.brackets = table tokens.length found := by
  obtain ⟨found, hfound, h⟩ := except_bind_eq_ok.mp h
  rw [except_pure_eq_ok] at h
  exact ⟨found, hfound, by rw [← h]⟩

theorem exists_ofTokens_eq_ok_iff {tokens : List Token} :
    (∃ outline, Outline.ofTokens tokens = .ok outline) ↔ Nested tokens := by
  rw [← pairs_eq_ok_iff_nested]
  constructor
  · rintro ⟨outline, h⟩
    obtain ⟨found, hfound, _⟩ := ofTokens_eq_ok h
    exact ⟨found, hfound⟩
  · rintro ⟨found, h⟩
    exact ⟨_, except_bind_eq_ok.mpr ⟨found, h, rfl⟩⟩

theorem ofTokens_eq_error_iff {tokens : List Token} {m : Mismatch} :
    Outline.ofTokens tokens = .error m ↔ m.Describes tokens := by
  rw [← pairs_eq_error_iff_describes]
  constructor
  · intro h
    rcases except_bind_eq_error.mp h with h | ⟨found, _, h⟩
    · exact h
    · exact absurd h except_pure_ne_error
  · intro h
    exact except_bind_eq_error.mpr (Or.inl h)

end PhpLint.Bracket
