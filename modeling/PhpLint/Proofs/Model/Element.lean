import PhpLint.Proofs.Model.Lexeme

/-!
Elements of bracketed lists, by the positions at which they begin. A pass over the tokens counts open
brackets and notes whether an element has begun; the reference says of each position by itself
whether an element begins there. Main statement: the pass finds just these positions, in order.
-/
namespace PhpLint

open PhpLint.Bracket (Indexed)
open PhpLint.Lexeme (nested front)

variable {separator : String}

/-! ### The pass -/

/-- A step of the pass, with its state behind the token. -/
theorem listElements_step {α : Type} (token : α → Token)
    (hbracket : separator ∉ Lexeme.bracketTexts) (terminator : String) (fresh : Bool) (depth : Nat)
    (x : α) (r : List α) :
    listElements token separator terminator fresh depth (x :: r) =
      if depth = 0 ∧ ((token x).is terminator || (token x).isCloseBracket) then []
      else if depth = 0 ∧ (token x).is separator then
        listElements token separator terminator true 0 r
      else
        (if fresh ∧ (token x).isSpace = false then [x :: r] else []) ++
          listElements token separator terminator (fresh && (token x).isSpace)
            (nested depth (token x)) r := by
  have hclose : ((token x).isCloseBracket && !(token x).is separator) = (token x).isCloseBracket := by
    cases hsep : (token x).is separator with
    | false => rw [Bool.not_false, Bool.and_true]
    | true => rw [(Lexeme.not_bracket_of_is hsep hbracket).2, Bool.false_and]
  rw [listElements]
  dsimp only
  rw [hclose]
  by_cases hends : depth = 0 ∧ ((token x).is terminator || (token x).isCloseBracket)
  · rw [if_pos hends, if_pos (by simpa using hends)]
  rw [if_neg hends, if_neg (by simpa using hends)]
  by_cases hsep : depth = 0 ∧ (token x).is separator
  · rw [if_pos hsep, if_pos (by simpa using hsep)]
  rw [if_neg hsep, if_neg (by simpa using hsep)]
  cases fresh <;> cases (token x).isSpace <;> rfl

/-- Lists of lexemes have the elements of the lists of their tokens. -/
theorem listElements_ofTokens (hbracket : separator ∉ Lexeme.bracketTexts)
    (terminator : String) (fresh : Bool) (depth : Nat) (joined : Bool) (ts : List Token) :
    (listElements Lexeme.toToken separator terminator fresh depth
      (Lexeme.ofTokens joined ts)).filterMap front =
    (listElements id separator terminator fresh depth ts).filterMap (·.head?.map (·.index)) := by
  induction ts generalizing fresh depth joined with
  | nil => rfl
  | cons t ts ih =>
    rw [Lexeme.ofTokens, listElements_step id hbracket]
    dsimp only [id]
    by_cases hspace : t.isSpace
    · rw [if_pos hspace, ih, Lexeme.nested_of_isSpace hspace]
      simp [Lexeme.not_is_of_isSpace hspace, Lexeme.not_isCloseBracket_of_isSpace hspace, hspace]
    rw [if_neg hspace, listElements_step Lexeme.toToken hbracket]
    dsimp only
    split_ifs <;> simp [ih, front]

/-- Where a list starts among the tokens of a file, and what separates and ends its elements. -/
structure BracketList where
  tokens : List Token
  start : Nat
  separator : String
  terminator : String

namespace BracketList

/-- The brackets opened less those closed from the start of the list up to a position. -/
def depth (l : BracketList) (p : Nat) : Int :=
  let passed := (l.tokens.take p).drop l.start
  passed.countP (·.isOpenBracket) - passed.countP (·.isCloseBracket)

/-- At a position, outside of all brackets, stands a token of a kind. -/
def Meets (l : BracketList) (kind : Token → Bool) (p : Nat) : Prop :=
  l.start ≤ p ∧ l.tokens[p]?.any kind ∧ l.depth p = 0

def Separates (l : BracketList) (p : Nat) : Prop :=
  l.Meets (·.is l.separator) p

/-- A terminator, or the bracket that closes the list. -/
def Ends (l : BracketList) (p : Nat) : Prop :=
  l.Meets (fun t => t.is l.terminator || t.isCloseBracket) p

/-- All tokens behind the last separator, or behind the start of the list, are white space. -/
def IsFresh (l : BracketList) (p : Nat) : Prop :=
  ∀ q < p, l.start ≤ q → (∀ s < p, q ≤ s → ¬ l.Separates s) → l.tokens[q]?.any (·.isSpace)

/-- At a position begins an element of the list. -/
structure Begins (l : BracketList) (p : Nat) : Prop where
  meets : l.Meets (fun t => !t.isSpace && !t.is l.separator) p
  goesOn : ∀ q < p + 1, ¬ l.Ends q
  fresh : l.IsFresh p

section Decidable

variable (l : BracketList) (p : Nat)

instance (kind : Token → Bool) : Decidable (l.Meets kind p) :=
  inferInstanceAs (Decidable (_ ∧ _ ∧ _))

instance : Decidable (l.Separates p) :=
  inferInstanceAs (Decidable (l.Meets _ p))

instance : Decidable (l.Ends p) :=
  inferInstanceAs (Decidable (l.Meets _ p))

instance : Decidable (l.IsFresh p) :=
  inferInstanceAs (Decidable (∀ q < p, _ → (∀ s < p, _) → _))

instance : Decidable (l.Begins p) :=
  decidable_of_iff (l.Meets _ p ∧ (∀ q < p + 1, ¬ l.Ends q) ∧ l.IsFresh p)
    ⟨fun h => ⟨h.1, h.2.1, h.2.2⟩, fun h => ⟨h.meets, h.goesOn, h.fresh⟩⟩

end Decidable

variable {l : BracketList} {p depth : Nat} {t : Token} {fresh : Bool}

/-! ### One token more -/

theorem depth_start (l : BracketList) : l.depth l.start = 0 := by
  unfold BracketList.depth
  rw [List.drop_eq_nil_of_le (List.length_take_le ..)]
  rfl

theorem depth_succ (hstart : l.start ≤ p) (ht : l.tokens[p]? = some t) :
    l.depth (p + 1) = l.depth p + (if t.isOpenBracket then 1 else 0) -
      (if t.isCloseBracket then 1 else 0) := by
  have hpassed : (l.tokens.take (p + 1)).drop l.start = (l.tokens.take p).drop l.start ++ [t] := by
    have hlt := (List.getElem?_eq_some_iff.mp ht).1
    rw [List.take_add_one, ht, Option.toList_some, List.drop_append_of_le_length]
    rw [List.length_take]
    omega
  unfold BracketList.depth
  rw [hpassed]
  simp only [List.countP_append, List.countP_singleton]
  split_ifs <;> push_cast <;> omega

theorem depth_succ_nested (hstart : l.start ≤ p) (ht : l.tokens[p]? = some t)
    (hdepth : l.depth p = depth) (hinside : ¬ (depth = 0 ∧ t.isCloseBracket)) :
    l.depth (p + 1) = nested depth t := by
  rw [depth_succ hstart ht, hdepth]
  unfold nested
  by_cases hopen : t.isOpenBracket
  · rw [if_pos hopen, if_pos hopen, Bracket.isCloseBracket_of_isOpenBracket hopen]
    push_cast
    simp
  rw [if_neg hopen, if_neg hopen]
  by_cases hclose : t.isCloseBracket
  · have hpos : depth ≠ 0 := fun hzero => hinside ⟨hzero, hclose⟩
    rw [if_pos hclose, if_pos hclose]
    omega
  · rw [if_neg hclose, if_neg hclose]
    omega

theorem isFresh_start (l : BracketList) : l.IsFresh l.start :=
  fun _ hq hstart _ => absurd hq (Nat.not_lt.mpr hstart)

/-- Behind a separator, or where nothing but white space has been added. -/
theorem isFresh_succ (hstart : l.start ≤ p) (ht : l.tokens[p]? = some t) :
    l.IsFresh (p + 1) ↔ l.Separates p ∨ l.IsFresh p ∧ t.isSpace := by
  constructor
  · intro h
    by_cases hsep : l.Separates p
    · exact .inl hsep
    -- no separator is added, so that what stands behind the last one stays behind it
    have hlater {q : Nat} (hbehind : ∀ s < p, q ≤ s → ¬ l.Separates s) :
        ∀ s < p + 1, q ≤ s → ¬ l.Separates s := by
      intro s hs hq
      rcases Nat.lt_succ_iff_lt_or_eq.mp hs with hs | rfl
      · exact hbehind s hs hq
      · exact hsep
    refine .inr ⟨fun q hq hfrom hbehind => ?_, ?_⟩
    · exact h q (Nat.lt_succ_of_lt hq) hfrom (hlater hbehind)
    · have hspace := h p (Nat.lt_succ_self p) hstart (hlater fun s hs hq =>
        absurd hs (Nat.not_lt.mpr hq))
      simpa [ht] using hspace
  · rintro (hsep | ⟨hfresh, hspace⟩) q hq hfrom hbehind
    · exact absurd hsep (hbehind p (Nat.lt_succ_self p) (Nat.le_of_lt_succ hq))
    · rcases Nat.lt_succ_iff_lt_or_eq.mp hq with hq | rfl
      · exact hfresh q hq hfrom fun s hs => hbehind s (Nat.lt_succ_of_lt hs)
      · simpa [ht] using hspace

theorem meets_iff (kind : Token → Bool) (hstart : l.start ≤ p) (ht : l.tokens[p]? = some t)
    (hdepth : l.depth p = depth) : l.Meets kind p ↔ depth = 0 ∧ kind t := by
  unfold Meets
  rw [ht, hdepth]
  simp [hstart, and_comm]

/-! ### The pass -/

/-- What the pass knows in front of a position: the list has not ended, an element has begun or not,
and brackets are open. -/
structure Scan (l : BracketList) (p : Nat) (fresh : Bool) (depth : Nat) : Prop where
  start_le : l.start ≤ p
  depth_eq : l.depth p = depth
  goesOn : ∀ q < p, ¬ l.Ends q
  fresh_iff : fresh ↔ l.IsFresh p
  outside : fresh → depth = 0

theorem scan_start (l : BracketList) : l.Scan l.start true 0 where
  start_le := Nat.le_refl _
  depth_eq := l.depth_start
  goesOn := fun _ hq hends => absurd hq (Nat.not_lt.mpr hends.1)
  fresh_iff := iff_of_true rfl l.isFresh_start
  outside := fun _ => rfl

namespace Scan

theorem ends_iff (h : l.Scan p fresh depth) (ht : l.tokens[p]? = some t) :
    l.Ends p ↔ depth = 0 ∧ (t.is l.terminator || t.isCloseBracket) :=
  meets_iff _ h.start_le ht h.depth_eq

theorem separates_iff (h : l.Scan p fresh depth) (ht : l.tokens[p]? = some t) :
    l.Separates p ↔ depth = 0 ∧ t.is l.separator :=
  meets_iff _ h.start_le ht h.depth_eq

theorem goesOn_succ (h : l.Scan p fresh depth) (hgoes : ¬ l.Ends p) : ∀ q < p + 1, ¬ l.Ends q := by
  intro q hq
  rcases Nat.lt_succ_iff_lt_or_eq.mp hq with hq | rfl
  · exact h.goesOn q hq
  · exact hgoes

/-- Nothing begins where the list ends, nor behind it. -/
theorem not_begins_of_ends {q : Nat} (hends : l.Ends p) (hq : p ≤ q) : ¬ l.Begins q :=
  fun hbegins => hbegins.goesOn p (Nat.lt_succ_of_le hq) hends

/-- A separator is no part of an element. -/
theorem not_begins_of_separates (h : l.Scan p fresh depth) (ht : l.tokens[p]? = some t)
    (hsep : l.Separates p) : ¬ l.Begins p := by
  intro hbegins
  have hkind := ((meets_iff _ h.start_le ht h.depth_eq).mp hbegins.meets).2
  rw [((h.separates_iff ht).mp hsep).2, Bool.not_true, Bool.and_false] at hkind
  contradiction

theorem begins_iff (h : l.Scan p fresh depth) (ht : l.tokens[p]? = some t)
    (hgoes : ¬ l.Ends p) (hsep : ¬ l.Separates p) : l.Begins p ↔ fresh ∧ t.isSpace = false := by
  have hmeets := meets_iff (fun t => !t.isSpace && !t.is l.separator) h.start_le ht h.depth_eq
  rw [h.separates_iff ht] at hsep
  constructor
  · intro hbegins
    have hkind := (hmeets.mp hbegins.meets).2
    rw [Bool.and_eq_true, Bool.not_eq_true'] at hkind
    exact ⟨h.fresh_iff.mpr hbegins.fresh, hkind.1⟩
  · rintro ⟨hfresh, hspace⟩
    have hzero := h.outside hfresh
    have hother : t.is l.separator = false := by
      simpa using fun hsame => hsep ⟨hzero, hsame⟩
    refine ⟨hmeets.mpr ⟨hzero, ?_⟩, h.goesOn_succ hgoes, h.fresh_iff.mp hfresh⟩
    rw [hspace, hother]
    rfl

/-- A step over a separator. -/
theorem step_separator (h : l.Scan p fresh depth) (ht : l.tokens[p]? = some t)
    (hbracket : l.separator ∉ Lexeme.bracketTexts) (hgoes : ¬ l.Ends p) (hsep : l.Separates p) :
    l.Scan (p + 1) true 0 where
  start_le := Nat.le_succ_of_le h.start_le
  depth_eq := by
    obtain ⟨hopen, hclose⟩ :=
      Lexeme.not_bracket_of_is ((h.separates_iff ht).mp hsep).2 hbracket
    rw [depth_succ h.start_le ht, hsep.2.2, hopen, hclose]
    rfl
  goesOn := h.goesOn_succ hgoes
  fresh_iff := iff_of_true rfl ((isFresh_succ h.start_le ht).mpr (.inl hsep))
  outside := fun _ => rfl

/-- A step over a token of an element, or over white space in front of it. -/
theorem step_other (h : l.Scan p fresh depth) (ht : l.tokens[p]? = some t) (hgoes : ¬ l.Ends p)
    (hsep : ¬ l.Separates p) : l.Scan (p + 1) (fresh && t.isSpace) (nested depth t) where
  start_le := Nat.le_succ_of_le h.start_le
  depth_eq := by
    refine depth_succ_nested h.start_le ht h.depth_eq fun hclose => hgoes ?_
    rw [h.ends_iff ht]
    exact ⟨hclose.1, by rw [hclose.2, Bool.or_true]⟩
  goesOn := h.goesOn_succ hgoes
  fresh_iff := by
    rw [isFresh_succ h.start_le ht, ← h.fresh_iff, Bool.and_eq_true]
    exact (or_iff_right hsep).symm
  outside := by
    intro hfresh
    obtain ⟨hfresh, hspace⟩ := Bool.and_eq_true_iff.mp hfresh
    rw [Lexeme.nested_of_isSpace hspace]
    exact h.outside hfresh

end Scan

/-- Behind a position the pass finds the positions at which an element begins. -/
theorem Scan.positions (h : l.Scan p fresh depth) (hindexed : Indexed l.tokens)
    (hbracket : l.separator ∉ Lexeme.bracketTexts) :
    (listElements id l.separator l.terminator fresh depth
      (l.tokens.drop p)).filterMap (·.head?.map (·.index)) =
    (List.range' p (l.tokens.length - p)).filter (l.Begins ·) := by
  induction hcount : l.tokens.length - p generalizing p fresh depth with
  | zero =>
    rw [List.drop_eq_nil_of_le (Nat.le_of_sub_eq_zero hcount)]
    rfl
  | succ n ih =>
    have hlt : p < l.tokens.length := by omega
    have ht := List.getElem?_eq_getElem hlt
    have hindex := hindexed p hlt
    have hnext : l.tokens.length - (p + 1) = n := by omega
    rw [List.drop_eq_getElem_cons hlt, listElements_step id hbracket, List.range'_succ]
    generalize l.tokens[p] = t at ht hindex
    dsimp only [id]
    by_cases hends : l.Ends p
    · rw [if_pos ((h.ends_iff ht).mp hends), eq_comm, List.filterMap_nil, List.filter_eq_nil_iff,
        ← List.range'_succ]
      intro q hq
      simpa using not_begins_of_ends hends (List.mem_range'_1.mp hq).1
    rw [if_neg (mt (h.ends_iff ht).mpr hends)]
    by_cases hsep : l.Separates p
    · rw [if_pos ((h.separates_iff ht).mp hsep),
        List.filter_cons_of_neg (by simpa using h.not_begins_of_separates ht hsep)]
      exact ih (h.step_separator ht hbracket hends hsep) hnext
    rw [if_neg (mt (h.separates_iff ht).mpr hsep), List.filterMap_append,
      ih (h.step_other ht hends hsep) hnext]
    have hbegins := h.begins_iff ht hends hsep
    by_cases hfirst : fresh ∧ t.isSpace = false
    · rw [if_pos hfirst, List.filter_cons_of_pos (by simpa using hbegins.mpr hfirst)]
      simp [hindex]
    · rw [if_neg hfirst, List.filter_cons_of_neg (by simpa using mt hbegins.mp hfirst)]
      rfl

/-- Nothing begins in front of the start. -/
theorem filter_begins (l : BracketList) :
    (List.range l.tokens.length).filter (l.Begins ·) =
      (List.range' l.start (l.tokens.length - l.start)).filter (l.Begins ·) := by
  have hnone (n : Nat) (hn : n ≤ l.start) : (List.range' 0 n).filter (l.Begins ·) = [] := by
    rw [List.filter_eq_nil_iff]
    intro p hp
    have hlt := (List.mem_range'_1.mp hp).2
    have hnot : ¬ l.Begins p := fun hbegins => by
      have := hbegins.meets.1
      omega
    simpa using hnot
  rw [List.range_eq_range']
  rcases Nat.le_total l.start l.tokens.length with hle | hle
  · have hsplit : l.tokens.length = l.start + (l.tokens.length - l.start) := by omega
    rw [hsplit, ← List.range'_append_1, List.filter_append, hnone l.start (Nat.le_refl _),
      Nat.add_sub_cancel_left, Nat.zero_add]
    rfl
  · rw [hnone _ hle, Nat.sub_eq_zero_of_le hle]
    rfl

/--
The elements of a list begin, in this order, at just the positions that the reference names, also if
the list is read without white space.
-/
theorem listElements_eq_filter_begins (l : BracketList) (hindexed : Indexed l.tokens)
    (hbracket : l.separator ∉ Lexeme.bracketTexts) :
    (Token.listElements l.separator l.terminator (l.tokens.drop l.start)).map (·.index) =
      (List.range l.tokens.length).filter (l.Begins ·) ∧
    ∀ joined, (listElements Lexeme.toToken l.separator l.terminator true 0
        (Lexeme.ofTokens joined (l.tokens.drop l.start))).filterMap front =
      (List.range l.tokens.length).filter (l.Begins ·) := by
  have hpositions := l.scan_start.positions hindexed hbracket
  rw [filter_begins]
  constructor
  · rw [Token.listElements, List.map_filterMap]
    exact hpositions
  · intro joined
    rw [listElements_ofTokens hbracket]
    exact hpositions

/-- The list behind the bracket of `f(a, g(b, c),, &d) , e`. -/
theorem listElements_eq_filter_begins_nested :
    let tokens : List Token := [(.name, "f"), (.punct, "("), (.name, "a"), (.punct, ","),
      (.whitespace, " "), (.name, "g"), (.punct, "("), (.name, "b"), (.punct, ","), (.name, "c"),
      (.punct, ")"), (.punct, ","), (.punct, ","), (.whitespace, " "), (.punct, "&"), (.name, "d"),
      (.punct, ")"), (.punct, ","), (.name, "e")].zipIdx.map fun (t, i) => ⟨t.1, t.2, 1, i⟩
    let l : BracketList := ⟨tokens, 2, ",", ")"⟩
    Indexed l.tokens ∧ l.separator ∉ Lexeme.bracketTexts ∧
      (List.range l.tokens.length).filter (l.Begins ·) = [2, 5, 14] ∧
      (Token.listElements l.separator l.terminator (l.tokens.drop l.start)).map (·.index) =
        (List.range l.tokens.length).filter (l.Begins ·) ∧
      ∀ joined, (listElements Lexeme.toToken l.separator l.terminator true 0
          (Lexeme.ofTokens joined (l.tokens.drop l.start))).filterMap front =
        (List.range l.tokens.length).filter (l.Begins ·) := by
  intro tokens l
  have hindexed : Indexed l.tokens := by
    unfold Indexed
    decide
  have hbracket : l.separator ∉ Lexeme.bracketTexts := by decide
  exact ⟨hindexed, hbracket, by decide +kernel, listElements_eq_filter_begins l hindexed hbracket⟩

end BracketList

end PhpLint
