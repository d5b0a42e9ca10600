import PhpLint.Proofs.Model.Bracket

/-! Lexemes by the positions of their tokens. -/
namespace PhpLint.Lexeme

open PhpLint.Bracket (Indexed)

/-- Whether the last of some tokens carries syntax. -/
def endsJoined (ts : List Token) : Bool :=
  ts.getLast?.any (!·.isSpace)

/-- The lexemes from token `k` on. -/
def ahead (ts : List Token) (k : Nat) : List Lexeme :=
  ofTokens (endsJoined (ts.take k)) (ts.drop k)

/-- The lexemes in front of token `k`, the nearest first. -/
def behind (ts : List Token) (k : Nat) : List Lexeme :=
  (ofTokens false (ts.take k)).reverse

/-- The position of the first lexeme. -/
def front (s : List Lexeme) : Option Nat :=
  s.head?.map (·.index)

/-- Punctuation that is an operator has more than one character. -/
def LongOperators (ts : List Token) : Prop :=
  ∀ t ∈ ts, t.kind = .operator → 2 ≤ t.text.length

def bracketTexts : List String :=
  ["(", "[", "\x7b", ")", "]", "\x7d"]

/-- The number of open brackets after one more token. -/
def nested (depth : Nat) (t : Token) : Nat :=
  if t.isOpenBracket then depth + 1 else if t.isCloseBracket then depth - 1 else depth

/-- Lexemes between two positions, in rising order. -/
structure Rising (first last : Nat) (s : List Lexeme) : Prop where
  pairwise : s.Pairwise (·.index < ·.index)
  between : ∀ x ∈ s, first ≤ x.index ∧ x.index < last

variable {ts : List Token} {t : Token} {k : Nat} {x : Lexeme} {r s : List Lexeme}

/-! ### Kinds of tokens -/

theorem not_isOpenBracket_of_kind (h : t.kind ≠ .punct) : t.isOpenBracket = false := by
  unfold Token.isOpenBracket
  simp [h]

theorem not_isCloseBracket_of_kind (h : t.kind ≠ .punct) : t.isCloseBracket = false := by
  unfold Token.isCloseBracket
  simp [h]

theorem kind_of_isIdentifier (h : t.isIdentifier) : t.kind = .keyword ∨ t.kind = .name := by
  unfold Token.isIdentifier at h
  simpa using h

/-- A word is no punctuation. -/
theorem not_punct_of_isIdentifier (h : t.isIdentifier) : t.kind ≠ .punct := by
  rcases kind_of_isIdentifier h with hkind | hkind <;> rw [hkind] <;> decide

theorem not_is_of_isOpenBracket {text : String} (h : t.isOpenBracket)
    (htext : text ≠ "(" ∧ text ≠ "[" ∧ text ≠ "\x7b") : t.is text = false := by
  unfold Token.isOpenBracket at h
  unfold Token.is
  simp only [Bool.and_eq_true, Bool.or_eq_true, beq_iff_eq] at h
  rcases h.2 with (heq | heq) | heq <;> rw [heq] <;> simp [Ne.symm, htext]

theorem not_is_of_isCloseBracket {text : String} (h : t.isCloseBracket)
    (htext : text ≠ ")" ∧ text ≠ "]" ∧ text ≠ "\x7d") : t.is text = false := by
  unfold Token.isCloseBracket at h
  unfold Token.is
  simp only [Bool.and_eq_true, Bool.or_eq_true, beq_iff_eq] at h
  rcases h.2 with (heq | heq) | heq <;> rw [heq] <;> simp [Ne.symm, htext]

theorem text_of_is {text : String} (h : t.is text) : t.text = text := by
  unfold Token.is at h
  simpa using (Bool.and_eq_true_iff.mp h).2

theorem not_isIdentifier_of_is {text : String} (h : t.is text) : t.isIdentifier = false := by
  unfold Token.is at h
  unfold Token.isIdentifier
  simp only [Bool.and_eq_true, Bool.or_eq_true, beq_iff_eq] at h
  rcases h.1 with hkind | hkind <;> rw [hkind] <;> rfl

theorem not_is_of_kind {text : String} (h : t.kind ≠ .punct ∧ t.kind ≠ .operator) :
    t.is text = false := by
  unfold Token.is
  simp [h]

theorem not_is_of_is {text other : String} (h : t.is text) (hne : text ≠ other) :
    t.is other = false := by
  unfold Token.is
  rw [text_of_is h, beq_eq_false_iff_ne.mpr hne, Bool.and_false]

theorem kind_of_is {text : String} (h : t.is text) : t.kind = .punct ∨ t.kind = .operator := by
  unfold Token.is at h
  simpa using (Bool.and_eq_true_iff.mp h).1

theorem not_isTerminator_of_is {text : String} (h : t.is text) (hne : text ≠ ";") :
    t.isTerminator = false := by
  have hkind : t.kind ≠ .closeTag := by
    rcases kind_of_is h with hkind | hkind <;> rw [hkind] <;> decide
  unfold Token.isTerminator
  rw [not_is_of_is h hne]
  simpa using hkind

theorem not_isKeyword_of_kind {word : String} (h : t.kind ≠ .keyword) :
    t.isKeyword word = false := by
  unfold Token.isKeyword
  simp [h]

theorem not_isKeyword_of_is {text word : String} (h : t.is text) : t.isKeyword word = false := by
  refine not_isKeyword_of_kind ?_
  rcases kind_of_is h with hkind | hkind <;> rw [hkind] <;> decide

theorem kind_of_isKeyword {word : String} (h : t.isKeyword word) : t.kind = .keyword := by
  unfold Token.isKeyword at h
  exact beq_iff_eq.mp (Bool.and_eq_true_iff.mp h).1

theorem not_isCloseBracket_of_isKeyword {word : String} (h : t.isKeyword word) :
    t.isCloseBracket = false :=
  not_isCloseBracket_of_kind (by rw [kind_of_isKeyword h]; decide)

theorem not_isTerminator_of_isKeyword {word : String} (h : t.isKeyword word) :
    t.isTerminator = false := by
  unfold Token.isTerminator Token.is
  rw [kind_of_isKeyword h]
  rfl

/-- A reserved word is one word only. -/
theorem not_isKeyword_of_isKeyword {word other : String} (h : t.isKeyword word)
    (hne : Text.fold word ≠ Text.fold other) : t.isKeyword other = false := by
  unfold Token.isKeyword Text.sameFold at h ⊢
  rw [beq_iff_eq.mp (Bool.and_eq_true_iff.mp h).2, beq_eq_false_iff_ne.mpr hne, Bool.and_false]

theorem not_isOpenBracket_of_is {text : String} (h : t.is text)
    (htext : text ≠ "(" ∧ text ≠ "[" ∧ text ≠ "\x7b") : t.isOpenBracket = false := by
  cases hopen : t.isOpenBracket with
  | false => rfl
  | true =>
    rw [not_is_of_isOpenBracket hopen htext] at h
    contradiction

theorem not_isCloseBracket_of_is {text : String} (h : t.is text)
    (htext : text ≠ ")" ∧ text ≠ "]" ∧ text ≠ "\x7d") : t.isCloseBracket = false := by
  cases hclose : t.isCloseBracket with
  | false => rfl
  | true =>
    rw [not_is_of_isCloseBracket hclose htext] at h
    contradiction

theorem not_bracket_of_is {text : String} (h : t.is text) (htext : text ∉ bracketTexts) :
    t.isOpenBracket = false ∧ t.isCloseBracket = false := by
  simp only [bracketTexts, List.mem_cons, List.not_mem_nil, or_false, not_or] at htext
  exact ⟨not_isOpenBracket_of_is h ⟨htext.1, htext.2.1, htext.2.2.1⟩,
    not_isCloseBracket_of_is h htext.2.2.2⟩

/-! ### Tokens and lexemes -/

theorem kind_of_isSpace (h : t.isSpace) :
    t.kind = .whitespace ∨ t.kind = .comment ∨ t.kind = .docComment := by
  unfold Token.isSpace at h
  simpa [or_assoc] using h

theorem not_is_of_isSpace (h : t.isSpace) (text : String) : t.is text = false := by
  unfold Token.is
  rcases kind_of_isSpace h with hk | hk | hk <;> rw [hk] <;> rfl

theorem not_isOpenBracket_of_isSpace (h : t.isSpace) : t.isOpenBracket = false := by
  unfold Token.isOpenBracket
  rcases kind_of_isSpace h with hk | hk | hk <;> rw [hk] <;> rfl

theorem not_isCloseBracket_of_isSpace (h : t.isSpace) : t.isCloseBracket = false := by
  unfold Token.isCloseBracket
  rcases kind_of_isSpace h with hk | hk | hk <;> rw [hk] <;> rfl

theorem not_isTerminator_of_isSpace (h : t.isSpace) : t.isTerminator = false := by
  unfold Token.isTerminator
  rw [not_is_of_isSpace h]
  rcases kind_of_isSpace h with hk | hk | hk <;> rw [hk] <;> rfl

theorem not_isIdentifier_of_isSpace (h : t.isSpace) : t.isIdentifier = false := by
  unfold Token.isIdentifier
  rcases kind_of_isSpace h with hk | hk | hk <;> rw [hk] <;> rfl

/-- An opening parenthesis or bracket is no operator. -/
theorem isOpenBracket_of_is {text : String} (hlong : LongOperators ts) (ht : t ∈ ts)
    (htext : text = "(" ∨ text = "[" ∨ text = "\x7b") (h : t.is text) : t.isOpenBracket := by
  unfold Token.is at h
  simp only [Bool.and_eq_true, Bool.or_eq_true, beq_iff_eq] at h
  obtain ⟨hkind | hkind, heq⟩ := h
  · unfold Token.isOpenBracket
    rcases htext with rfl | rfl | rfl <;> simp [hkind, heq]
  · have hlength := hlong t ht hkind
    rw [heq] at hlength
    rcases htext with rfl | rfl | rfl <;> exact absurd hlength (by decide)

theorem isCloseBracket_of_is {text : String} (hlong : LongOperators ts) (ht : t ∈ ts)
    (htext : text = ")" ∨ text = "]" ∨ text = "\x7d") (h : t.is text) : t.isCloseBracket := by
  unfold Token.is at h
  simp only [Bool.and_eq_true, Bool.or_eq_true, beq_iff_eq] at h
  obtain ⟨hkind | hkind, heq⟩ := h
  · unfold Token.isCloseBracket
    rcases htext with rfl | rfl | rfl <;> simp [hkind, heq]
  · have hlength := hlong t ht hkind
    rw [heq] at hlength
    rcases htext with rfl | rfl | rfl <;> exact absurd hlength (by decide)

theorem map_toToken_ofTokens (joined : Bool) (ts : List Token) :
    (ofTokens joined ts).map (·.toToken) = ts.filter (!·.isSpace) := by
  induction ts generalizing joined with
  | nil => rfl
  | cons t ts ih =>
    rw [ofTokens]
    by_cases ht : t.isSpace
    · rw [if_pos ht, ih, List.filter_cons_of_neg (by simpa using ht)]
    · rw [if_neg ht, List.map_cons, ih, List.filter_cons_of_pos (by simpa using ht)]

theorem ofTokens_concat (ts : List Token) (t : Token) :
    ofTokens false (ts ++ [t]) =
      ofTokens false ts ++ if t.isSpace then [] else [⟨t, endsJoined ts⟩] := by
  have hgeneral (joined : Bool) (ts : List Token) : ofTokens joined (ts ++ [t]) =
      ofTokens joined ts ++ if t.isSpace then []
        else [⟨t, if ts.isEmpty then joined else endsJoined ts⟩] := by
    induction ts generalizing joined with
    | nil =>
      rw [List.nil_append, ofTokens]
      rfl
    | cons u ts ih =>
      have hlast : endsJoined (u :: ts) = if ts.isEmpty then !u.isSpace else endsJoined ts := by
        unfold endsJoined
        cases ts with
        | nil => rfl
        | cons v ts => rw [List.getLast?_cons_cons]; rfl
      rw [List.cons_append, ofTokens, ofTokens, ih, ih]
      by_cases hu : u.isSpace <;> simp [hu, hlast]
  rw [hgeneral]
  cases ts <;> rfl

theorem ahead_zero (ts : List Token) : ahead ts 0 = ofTokens false ts :=
  rfl

theorem ahead_of_le (h : ts.length ≤ k) : ahead ts k = [] := by
  unfold ahead
  rw [List.drop_eq_nil_of_le h]
  rfl

theorem endsJoined_take_succ (h : ts[k]? = some t) :
    endsJoined (ts.take (k + 1)) = !t.isSpace := by
  unfold endsJoined
  rw [List.take_add_one, h, Option.toList_some, List.getLast?_concat]
  rfl

private theorem ahead_eq (h : ts[k]? = some t) : ahead ts k =
    if t.isSpace then ahead ts (k + 1) else ⟨t, endsJoined (ts.take k)⟩ :: ahead ts (k + 1) := by
  obtain ⟨hk, hget⟩ := List.getElem?_eq_some_iff.mp h
  have hdrop : ts.drop k = t :: ts.drop (k + 1) := by rw [List.drop_eq_getElem_cons hk, hget]
  unfold ahead
  rw [hdrop, ofTokens, endsJoined_take_succ h]
  by_cases ht : t.isSpace <;> simp [ht]

theorem ahead_of_space (h : ts[k]? = some t) (ht : t.isSpace) : ahead ts k = ahead ts (k + 1) := by
  rw [ahead_eq h, if_pos ht]

theorem ahead_of_not_space (h : ts[k]? = some t) (ht : ¬ t.isSpace) :
    ahead ts k = ⟨t, endsJoined (ts.take k)⟩ :: ahead ts (k + 1) := by
  rw [ahead_eq h, if_neg ht]

theorem behind_zero (ts : List Token) : behind ts 0 = [] :=
  rfl

theorem behind_succ (h : ts[k]? = some t) : behind ts (k + 1) =
    if t.isSpace then behind ts k else ⟨t, endsJoined (ts.take k)⟩ :: behind ts k := by
  unfold behind
  rw [List.take_add_one, h, Option.toList_some, ofTokens_concat]
  by_cases ht : t.isSpace <;> simp [ht]

/-! ### Positions -/

/-- A lexeme stands at its position, and `r` follows it. -/
structure Heads (ts : List Token) (x : Lexeme) (r : List Lexeme) : Prop where
  token : ts[x.index]? = some x.toToken
  notSpace : ¬ x.isSpace
  joined : x.joined = endsJoined (ts.take x.index)
  after : ahead ts (x.index + 1) = r

theorem index_of_getElem? (hindexed : Indexed ts) (h : ts[k]? = some t) : t.index = k := by
  obtain ⟨hk, rfl⟩ := List.getElem?_eq_some_iff.mp h
  exact hindexed k hk

theorem heads_of_ahead {k : Nat} (hindexed : Indexed ts) (h : ahead ts k = x :: r) :
    k ≤ x.index ∧ Heads ts x r := by
  cases hget : ts[k]? with
  | none =>
    rw [ahead_of_le (List.getElem?_eq_none_iff.mp hget)] at h
    contradiction
  | some t =>
    have hindex := index_of_getElem? hindexed hget
    by_cases ht : t.isSpace
    · rw [ahead_of_space hget ht] at h
      have hnext := heads_of_ahead hindexed h
      exact ⟨Nat.le_of_succ_le hnext.1, hnext.2⟩
    · rw [ahead_of_not_space hget ht, List.cons.injEq] at h
      obtain ⟨rfl, hr⟩ := h
      exact ⟨Nat.le_of_eq hindex.symm, by rw [hindex, hget], ht, by rw [hindex], by rw [hindex, hr]⟩
termination_by ts.length - k
decreasing_by
  have := (List.getElem?_eq_some_iff.mp hget).1
  omega

theorem Heads.lt (h : Heads ts x r) : x.index < ts.length :=
  (List.getElem?_eq_some_iff.mp h.token).1

theorem Heads.mem (h : Heads ts x r) : x.toToken ∈ ts :=
  List.mem_of_getElem? h.token

/-- A lexeme is found from its own position. -/
theorem Heads.ahead_index (h : Heads ts x r) : ahead ts x.index = x :: r := by
  rw [ahead_of_not_space h.token h.notSpace, h.after, ← h.joined]

theorem heads_of_suffix {k : Nat} (hindexed : Indexed ts) (h : (x :: r) <:+ ahead ts k) :
    Heads ts x r := by
  cases hahead : ahead ts k with
  | nil =>
    rw [hahead, List.suffix_nil] at h
    contradiction
  | cons y s =>
    obtain ⟨hle, hy⟩ := heads_of_ahead hindexed hahead
    have hlt := hy.lt
    rw [hahead, List.suffix_cons_iff] at h
    rcases h with h | h
    · rw [List.cons.injEq] at h
      rw [h.1, h.2]
      exact hy
    · rw [← hy.after] at h
      exact heads_of_suffix hindexed h
termination_by ts.length - k

theorem Heads.of_suffix {y : Lexeme} (hindexed : Indexed ts) (h : Heads ts x r) (hs : (y :: s) <:+ r) :
    Heads ts y s := by
  rw [← h.after] at hs
  exact heads_of_suffix hindexed hs

theorem Heads.of_suffix_cons {y : Lexeme} (hindexed : Indexed ts) (h : Heads ts x r)
    (hs : (y :: s) <:+ x :: r) : Heads ts y s := by
  rw [← h.ahead_index] at hs
  exact heads_of_suffix hindexed hs

/-- White space and comments keep the next lexeme apart. -/
theorem not_joined_of_space (h : ts[k]? = some t) (ht : t.isSpace) (hx : ahead ts k = x :: r) :
    x.joined = false := by
  have hfalse (ts : List Token) (hts : ofTokens false ts = x :: r) : x.joined = false := by
    induction ts with
    | nil => contradiction
    | cons u ts ih =>
      rw [ofTokens] at hts
      split at hts
      · exact ih hts
      · rw [List.cons.injEq] at hts
        rw [← hts.1]
  rw [ahead_of_space h ht] at hx
  unfold ahead at hx
  rw [endsJoined_take_succ h, ht] at hx
  exact hfalse _ hx

theorem rising_ahead (hindexed : Indexed ts) (k : Nat) : Rising k ts.length (ahead ts k) := by
  cases h : ahead ts k with
  | nil => exact ⟨List.Pairwise.nil, nofun⟩
  | cons x r =>
    obtain ⟨hle, hx⟩ := heads_of_ahead hindexed h
    have hlt := hx.lt
    have hrest := rising_ahead hindexed (x.index + 1)
    rw [hx.after] at hrest
    refine ⟨List.pairwise_cons.mpr ⟨fun y hy => (hrest.between y hy).1, hrest.pairwise⟩, ?_⟩
    intro y hy
    rcases List.mem_cons.mp hy with rfl | hy
    · exact ⟨hle, hlt⟩
    · have := hrest.between y hy
      omega
termination_by ts.length - k

theorem Heads.lt_of_mem {y : Lexeme} (hindexed : Indexed ts) (h : Heads ts x r) (hy : y ∈ r) :
    x.index < y.index := by
  rw [← h.after] at hy
  exact ((rising_ahead hindexed _).between y hy).1

theorem Heads.le_of_mem {y : Lexeme} (hindexed : Indexed ts) (h : Heads ts x r) (hy : y ∈ x :: r) :
    x.index ≤ y.index := by
  rw [← h.ahead_index] at hy
  exact ((rising_ahead hindexed _).between y hy).1

theorem Rising.suffix {first last : Nat} (h : Rising first last s) (hr : r <:+ s) :
    Rising first last r :=
  ⟨h.pairwise.sublist hr.sublist, fun x hx => h.between x (hr.mem hx)⟩

theorem Rising.tail {first last : Nat} (h : Rising first last (x :: r)) :
    Rising (x.index + 1) last r := by
  obtain ⟨hx, hr⟩ := List.pairwise_cons.mp h.pairwise
  exact ⟨hr, fun y hy => ⟨hx y hy, (h.between y (List.mem_cons_of_mem x hy)).2⟩⟩

/-- The lexemes in front of a position are tokens of the list. -/
theorem getElem?_of_behind {k : Nat} (hindexed : Indexed ts) (h : behind ts k = x :: r) :
    ts[x.index]? = some x.toToken := by
  have hmem : x ∈ behind ts k := h ▸ List.mem_cons_self
  have hfilter : x.toToken ∈ (ts.take k).filter (!·.isSpace) := by
    rw [← map_toToken_ofTokens false]
    exact List.mem_map_of_mem (List.mem_reverse.mp hmem)
  obtain ⟨i, hi⟩ := List.mem_iff_getElem?.mp
    (List.mem_of_mem_take (List.mem_filter.mp hfilter).1)
  rw [index_of_getElem? hindexed hi, hi]

/-! ### Readings answer what follows -/

theorem nameRest_suffix (s : List Lexeme) : (nameRest s).2 <:+ s := by
  induction s with
  | nil => exact List.suffix_rfl
  | cons x r ih =>
    rw [nameRest]
    split
    · exact ih.trans (List.suffix_cons x r)
    · exact List.suffix_rfl

theorem readName_suffix (s : List Lexeme) : (readName s).2 <:+ s := by
  cases s with
  | nil => exact List.suffix_rfl
  | cons x r =>
    rw [readName]
    split
    · exact (nameRest_suffix r).trans (List.suffix_cons x r)
    · exact List.suffix_rfl

theorem readNames_eq (s : List Lexeme) : readNames s =
    if (readName s).1.isEmpty then ([], s)
    else
      match (readName s).2 with
      | [] => ([(readName s).1], [])
      | x :: r =>
        if x.is "," then ((readName s).1 :: (readNames r).1, (readNames r).2)
        else ([(readName s).1], x :: r) := by
  rw [readNames]
  dsimp only
  split
  · rfl
  · split
    · rename_i heq
      rw [heq]
    · rename_i heq
      rw [heq]

theorem readNames_suffix (s : List Lexeme) : (readNames s).2 <:+ s := by
  rw [readNames_eq]
  have hname := readName_suffix s
  split
  · exact List.suffix_rfl
  · cases hafter : (readName s).2 with
    | nil => exact List.nil_suffix
    | cons x r =>
      rw [hafter] at hname
      dsimp only
      split
      · have hlt : r.length < s.length := by
          have := hname.length_le
          rw [List.length_cons] at this
          omega
        exact ((readNames_suffix r).trans (List.suffix_cons x r)).trans hname
      · exact hname
termination_by s.length

theorem closing_suffix {depth : Nat} (h : closing depth s = some r) : r <:+ s := by
  induction s generalizing depth with
  | nil => contradiction
  | cons x s ih =>
    unfold closing at h
    split at h
    · exact (ih h).trans (List.suffix_cons x s)
    · split at h
      · split at h
        · cases h
          exact List.suffix_rfl
        · exact (ih h).trans (List.suffix_cons x s)
      · exact (ih h).trans (List.suffix_cons x s)

theorem afterClosing_suffix (h : afterClosing s = some r) : r <:+ s := by
  obtain ⟨t, ht, rfl⟩ := Option.map_eq_some_iff.mp h
  exact (List.drop_suffix 1 t).trans (closing_suffix ht)

theorem skipType_suffix {depth : Nat} (h : skipType depth s = some r) : r <:+ s := by
  induction s generalizing depth with
  | nil => contradiction
  | cons x s ih =>
    rw [skipType] at h
    split at h
    · split at h
      · cases h
        exact List.suffix_rfl
      · exact (ih h).trans (List.suffix_cons x s)
    · split at h
      · exact (ih h).trans (List.suffix_cons x s)
      · split at h <;> exact (ih h).trans (List.suffix_cons x s)

/-- The elements of a list are what follows their beginnings. -/
theorem listElements_suffix {separator terminator : String} {fresh : Bool} {depth : Nat}
    {e : List Lexeme} (he : e ∈ listElements Lexeme.toToken separator terminator fresh depth s) :
    e ≠ [] ∧ e <:+ s := by
  induction s generalizing fresh depth with
  | nil => contradiction
  | cons x r ih =>
    have hlater {fresh : Bool} {depth : Nat}
        (he : e ∈ listElements Lexeme.toToken separator terminator fresh depth r) :
        e ≠ [] ∧ e <:+ x :: r :=
      ⟨(ih he).1, (ih he).2.trans (List.suffix_cons x r)⟩
    rw [listElements] at he
    dsimp only at he
    split at he
    · contradiction
    split at he
    · exact hlater he
    · split at he
      · rcases List.mem_cons.mp he with rfl | he
        · exact ⟨List.cons_ne_nil x r, List.suffix_rfl⟩
        · exact hlater he
      · exact hlater he

theorem closing_cons (depth : Nat) (x : Lexeme) (r : List Lexeme) :
    closing depth (x :: r) =
      if depth = 0 ∧ x.isCloseBracket then some (x :: r) else closing (nested depth x.toToken) r := by
  have hnot := Bracket.not_open_of_isCloseBracket (t := x.toToken)
  unfold nested
  rw [closing.eq_def]
  dsimp only
  by_cases hclose : x.isCloseBracket
  · rw [hnot hclose, if_neg Bool.false_ne_true, if_neg Bool.false_ne_true, if_pos hclose,
      if_pos hclose]
    cases depth <;> simp [hclose]
  · by_cases hopen : x.isOpenBracket <;> simp [hclose, hopen]

/-- Brackets around others stay open. -/
theorem nested_add {depth : Nat} {t : Token} (h : ¬ (depth = 0 ∧ t.isCloseBracket)) (n : Nat) :
    nested (depth + n) t = nested depth t + n := by
  unfold nested
  split
  · omega
  · split
    · rename_i hclose
      have : depth ≠ 0 := fun hzero => h ⟨hzero, hclose⟩
      omega
    · rfl

theorem nested_of_not_bracket {t : Token} (hopen : t.isOpenBracket = false)
    (hclose : t.isCloseBracket = false) (depth : Nat) : nested depth t = depth := by
  unfold nested
  rw [hopen, hclose]
  rfl

theorem nested_of_kind {t : Token} (h : t.kind ≠ .punct) (depth : Nat) : nested depth t = depth :=
  nested_of_not_bracket (not_isOpenBracket_of_kind h) (not_isCloseBracket_of_kind h) depth

theorem nested_of_isSpace {t : Token} (h : t.isSpace) (depth : Nat) : nested depth t = depth :=
  nested_of_not_bracket (not_isOpenBracket_of_isSpace h) (not_isCloseBracket_of_isSpace h) depth

theorem nested_of_is {t : Token} {text : String} (h : t.is text) (htext : text ∉ bracketTexts)
    (depth : Nat) : nested depth t = depth :=
  nested_of_not_bracket (not_bracket_of_is h htext).1 (not_bracket_of_is h htext).2 depth

theorem nested_of_isCloseBracket {t : Token} (h : t.isCloseBracket) (depth : Nat) :
    nested depth t = depth - 1 := by
  unfold nested
  rw [Bracket.not_open_of_isCloseBracket h, if_neg Bool.false_ne_true, if_pos h]

/-- Of several open brackets the inner ones are closed first. -/
theorem closing_add (m n : Nat) (s : List Lexeme) :
    closing (m + n + 1) s = (closing m s).bind fun s => closing n (s.drop 1) := by
  induction s generalizing m with
  | nil => rfl
  | cons x r ih =>
    rw [closing_cons, closing_cons, if_neg (by omega)]
    by_cases hend : m = 0 ∧ x.isCloseBracket
    · rw [if_pos hend, nested_of_isCloseBracket hend.2, hend.1, Nat.zero_add, Nat.add_sub_cancel]
      rfl
    · rw [if_neg hend, Nat.add_assoc, nested_add hend, ← Nat.add_assoc, ih]

/-- A type goes on behind its parentheses. -/
theorem skipType_succ (depth : Nat) (s : List Lexeme) :
    skipType (depth + 1) s = (closing depth s).bind fun s => skipType 0 (s.drop 1) := by
  induction s generalizing depth with
  | nil => rfl
  | cons x r ih =>
    have hskip : skipType (depth + 1) (x :: r) = skipType (nested (depth + 1) x.toToken) r := by
      rw [skipType, if_neg (by simp)]
      unfold nested
      split
      · rfl
      · split <;> rfl
    rw [hskip, closing_cons]
    by_cases hend : depth = 0 ∧ x.isCloseBracket
    · rw [if_pos hend, nested_of_isCloseBracket hend.2, hend.1]
      rfl
    · rw [if_neg hend, nested_add hend, ih]

/-- An expression ends with one of its lexemes, or in front of them. -/
theorem expressionEnd_mem (depth last : Nat) (s : List Lexeme) :
    expressionEnd depth last s = last ∨ ∃ x ∈ s, expressionEnd depth last s = x.index := by
  induction s generalizing depth last with
  | nil => exact Or.inl rfl
  | cons x r ih =>
    have hnext (depth : Nat) : expressionEnd depth x.index r = last ∨
        ∃ y ∈ x :: r, expressionEnd depth x.index r = y.index := by
      rcases ih depth x.index with heq | ⟨y, hy, heq⟩
      · exact Or.inr ⟨x, List.mem_cons_self, heq⟩
      · exact Or.inr ⟨y, List.mem_cons_of_mem x hy, heq⟩
    rw [expressionEnd]
    split
    · exact Or.inl rfl
    · split
      · exact hnext _
      · split <;> exact hnext _

end PhpLint.Lexeme
