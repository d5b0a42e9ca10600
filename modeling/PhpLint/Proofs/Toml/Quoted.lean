import Mathlib
import PhpLint.Toml.Scalar
import PhpLint.Toml.Writer

/-!
Quoted texts are read as what they were written from, whatever characters they hold. Both kinds of
long texts hold at most two quotes in a row, so that three of them are their end.
-/
namespace PhpLint.Toml

variable {quoteMark c : Char} {long : Bool} {s w cs r done : List Char} {k n : Nat}

/-! ### Characters -/

theorem isPlain_of_not_isControl (h : isControl c = false) (hbreak : c ≠ '\n') :
    isPlain c = true := by
  unfold isControl at h
  unfold isPlain
  by_cases htab : c = '\t'
  · rw [htab]
    rfl
  · simp only [Bool.or_eq_false_iff, Bool.and_eq_false_iff, bne_eq_false_iff_eq,
      beq_eq_false_iff_ne, decide_eq_false_iff_not] at h
    have hlow : 0x20 ≤ c.toNat := by
      rcases h.1 with (hlow | rfl) | rfl
      · omega
      · exact absurd rfl htab
      · exact absurd rfl hbreak
    simp [hlow, h.2]

theorem breakLength_of_ne (h : ∀ c ∈ s.head?, c ≠ '\n' ∧ c ≠ '\r') : breakLength s = 0 := by
  unfold breakLength
  split
  · exact absurd rfl (h '\n' rfl).1
  · exact absurd rfl (h '\r' rfl).2
  · rfl

theorem lineEndLength_of_ne (h : Text.isTabOrSpace c = false) (hfeed : c ≠ '\n')
    (hreturn : c ≠ '\r') : lineEndLength (c :: r) = 0 := by
  have hbreak : breakLength (c :: r) = 0 := breakLength_of_ne (by simp [hfeed, hreturn])
  unfold lineEndLength
  rw [List.takeWhile_cons_of_neg (by simp [h])]
  change (if breakLength (c :: r) == 0 then 0 else skipLength 0 (c :: r)) = 0
  rw [hbreak]
  rfl

private theorem numbered?_control : ∀ n < 0x80,
    numbered? ['0', '0', Text.hexDigitUpper (n / 16), Text.hexDigitUpper (n % 16)] =
      some (Char.ofNat n) := by
  decide

theorem escape?_control (h : c.toNat < 0x80) (r : List Char) :
    escape? ('u' :: '0' :: '0' :: Text.hexDigitUpper (c.toNat / 16) ::
      Text.hexDigitUpper (c.toNat % 16) :: r) = some (c, 5) := by
  rw [escape?, if_neg (by simp)]
  change (numbered? ['0', '0', _, _]).map _ = _
  rw [numbered?_control c.toNat h, Char.ofNat_toNat]
  rfl

/-- What stands for a character between two quotes. Only double quotes know escapes, and only long
texts line breaks. -/
inductive Spells (quoteMark : Char) (long : Bool) (c : Char) : List Char → Prop where
  | escape {d : Char} {ds : List Char} (hquote : quoteMark = '"')
    (h : ∀ r, escape? (d :: ds ++ r) = some (c, ds.length + 1))
    (hblank : Text.isTabOrSpace d = false) (hfeed : d ≠ '\n') (hreturn : d ≠ '\r') :
    Spells quoteMark long c ('\\' :: d :: ds)
  | plain (h : isPlain c = true) (hquote : c ≠ quoteMark) (hslash : quoteMark = '"' → c ≠ '\\') :
    Spells quoteMark long c [c]
  | lineBreak (hlong : long = true) (h : c = '\n') (hquote : c ≠ quoteMark) :
    Spells quoteMark long c [c]

theorem spells_escapeChar (long : Bool) (hquote : c ≠ '"') :
    Spells '"' long c (escapeChar long c) := by
  unfold escapeChar
  split
  case h_3 =>
    cases long with
    | true => exact .lineBreak rfl rfl (by decide)
    | false => exact .escape rfl (fun r => rfl) (by decide) (by decide) (by decide)
  case h_7 hfeed _ _ hslash =>
    split_ifs with hcontrol
    · have hlow : c.toNat < 0x80 := by
        unfold isControl at hcontrol
        simp only [Bool.or_eq_true, Bool.and_eq_true, decide_eq_true_eq, beq_iff_eq] at hcontrol
        rcases hcontrol with ⟨⟨hlow, -⟩, -⟩ | rfl
        · omega
        · decide
      exact .escape rfl (fun r => escape?_control hlow r) (by decide) (by decide) (by decide)
    · exact .plain (isPlain_of_not_isControl (by simpa using hcontrol) hfeed) hquote
        fun _ => hslash
  all_goals exact .escape rfl (fun r => rfl) (by decide) (by decide) (by decide)

theorem spells_doubleQuote (long : Bool) : Spells '"' long '"' ['\\', '"'] :=
  .escape rfl (fun r => rfl) (by decide) (by decide) (by decide)

theorem Spells.head?_ne (h : Spells quoteMark long c cs) (hne : quoteMark ≠ '\\') (r : List Char) :
    (cs ++ r).head? ≠ some quoteMark := by
  cases h with
  | escape => simpa using hne.symm
  | plain _ hquote => simpa using hquote
  | lineBreak _ _ hquote => simpa using hquote

/-! ### Texts on one line -/

theorem basicFrom_spells (h : Spells '"' false c cs) (done : List Char) (n : Nat) (r : List Char) :
    basicFrom done n (cs ++ r) = basicFrom (c :: done) (n + cs.length) r := by
  cases h with
  | @escape d ds _ h =>
    rw [List.cons_append, basicFrom, if_neg (by decide), if_pos (by decide), h]
    dsimp only
    rw [List.drop_append_of_le_length (by simp), ← List.length_cons, List.drop_length,
      List.length_cons, List.nil_append, Nat.add_assoc, Nat.add_comm 1]
    rfl
  | plain h hquote hslash =>
    rw [List.singleton_append, basicFrom, if_neg (by simpa using hquote),
      if_neg (by simpa using hslash rfl), if_pos h]
    rfl
  | lineBreak hlong => cases hlong

theorem exists_spells_escapeFrom (c : Char) (s : List Char) : ∃ cs, Spells '"' false c cs ∧
    escapeFrom false 0 (c :: s) = cs ++ escapeFrom false 0 s := by
  rw [escapeFrom]
  by_cases hquote : c = '"'
  · rw [hquote]
    exact ⟨_, spells_doubleQuote false, rfl⟩
  · rw [if_neg (by simpa using hquote)]
    exact ⟨_, spells_escapeChar false hquote, rfl⟩

/-- A text in double quotes. -/
theorem basicFrom_escapeFrom (s done : List Char) (n : Nat) (r : List Char) :
    basicFrom done n (escapeFrom false 0 s ++ '"' :: r) =
      some (String.ofList (done.reverse ++ s), n + (escapeFrom false 0 s).length + 1) := by
  induction s generalizing done n with
  | nil =>
    rw [escapeFrom, List.nil_append, basicFrom, if_pos (by decide), List.append_nil]
    rfl
  | cons c s ih =>
    obtain ⟨cs, hcs, heq⟩ := exists_spells_escapeFrom c s
    rw [heq, List.append_assoc, basicFrom_spells hcs, ih, List.length_append, List.reverse_cons,
      List.append_assoc, List.singleton_append, Nat.add_assoc n]

/-- A text in single quotes. -/
theorem literalFrom_append (h : ∀ c ∈ s, isPlain c = true ∧ c ≠ '\'') (r : List Char) :
    literalFrom (s ++ '\'' :: r) = some (String.ofList s, s.length + 1) := by
  have htext : (s ++ '\'' :: r).takeWhile (fun c => isPlain c && c != '\'') = s := by
    rw [List.takeWhile_append_of_pos (by simpa using h), List.takeWhile_cons_of_neg (by simp),
      List.append_nil]
  unfold literalFrom
  dsimp only
  rw [htext, List.getElem?_append_right le_rfl, Nat.sub_self]
  rfl

/-! ### Long texts -/

/-- Quotes in a row, read at once. -/
theorem longFrom_replicate (hk : 0 < k) (hr : r.head? ≠ some quoteMark) :
    longFrom quoteMark done n (List.replicate k quoteMark ++ r) =
      if k < 3 then longFrom quoteMark (List.replicate k quoteMark ++ done) (n + k) r
      else if k ≤ 5 then
        some (String.ofList (List.replicate (k - 3) quoteMark ++ done).reverse, n + k)
      else none := by
  obtain ⟨k, rfl⟩ := Nat.exists_eq_succ_of_ne_zero hk.ne'
  have hrest : r.takeWhile (· == quoteMark) = [] := by
    cases r with
    | nil => rfl
    | cons c r =>
      rw [List.takeWhile_cons_of_neg]
      simpa using hr
  have hrun :
      1 + ((List.replicate k quoteMark ++ r).takeWhile (· == quoteMark)).length = k + 1 := by
    rw [List.takeWhile_append_of_pos (by simp), hrest, List.append_nil, List.length_replicate,
      Nat.add_comm]
  rw [List.replicate_succ, List.cons_append, longFrom, if_pos (by simp)]
  dsimp only
  rw [hrun]
  split_ifs with hshort
  · rw [Nat.add_sub_cancel, List.drop_append_of_le_length (by simp),
      List.drop_of_length_le (by simp)]
    rfl
  · rfl
  · rfl

theorem longFrom_spells (h : Spells quoteMark true c cs) (hne : quoteMark ≠ '\\')
    (done : List Char) (n : Nat) (r : List Char) :
    longFrom quoteMark done n (cs ++ r) = longFrom quoteMark (c :: done) (n + cs.length) r := by
  cases h with
  | @escape d ds hquote h hblank hfeed hreturn =>
    rw [List.cons_append, longFrom, if_neg (by simpa using hne.symm), if_pos (by simp [hquote]),
      List.cons_append, lineEndLength_of_ne hblank hfeed hreturn, ← List.cons_append, h]
    change longFrom quoteMark (c :: done) _ ((d :: ds ++ r).drop (ds.length + 1)) = _
    rw [List.drop_append_of_le_length (by simp), ← List.length_cons, List.drop_length,
      List.length_cons, List.nil_append, Nat.add_assoc, Nat.add_comm 1]
    rfl
  | plain h hquote hslash =>
    rw [List.singleton_append, longFrom, if_neg (by simpa using hquote), if_neg ?_, if_pos h]
    · rfl
    · rw [Bool.and_eq_true, beq_iff_eq, beq_iff_eq]
      exact fun hboth => hslash hboth.2 hboth.1
  | lineBreak _ h hquote =>
    rw [List.singleton_append, longFrom, if_neg (by simpa using hquote), if_neg (by simp [h]),
      if_neg (by simp [h, isPlain]), h]
    rfl

/-- What stands for a text between three quotes, if some quotes stand in front of it already. -/
inductive SpellsLong (quoteMark : Char) : Nat → List Char → List Char → Prop where
  | nil (k : Nat) : SpellsLong quoteMark k [] []
  | quote {k : Nat} {s w : List Char} (hk : k < 2) (h : SpellsLong quoteMark (k + 1) s w) :
    SpellsLong quoteMark k (quoteMark :: s) (quoteMark :: w)
  | char {k : Nat} {c : Char} {cs s w : List Char} (hc : Spells quoteMark true c cs)
    (h : SpellsLong quoteMark 0 s w) : SpellsLong quoteMark k (c :: s) (cs ++ w)

/-- A text between three quotes. -/
theorem longFrom_of_spellsLong (h : SpellsLong quoteMark k s w) (hk : k ≤ 2)
    (hne : quoteMark ≠ '\\') (done : List Char) (n : Nat) {r : List Char}
    (hr : r.head? ≠ some quoteMark) :
    longFrom quoteMark done n
        (List.replicate k quoteMark ++ (w ++ (List.replicate 3 quoteMark ++ r))) =
      some (String.ofList (done.reverse ++ (List.replicate k quoteMark ++ s)),
        n + (k + w.length + 3)) := by
  induction h generalizing done n with
  | nil k =>
    rw [List.nil_append, ← List.append_assoc, List.replicate_append_replicate,
      longFrom_replicate (by omega) hr, if_neg (by omega), if_pos (by omega), Nat.add_sub_cancel]
    simp
  | @quote k s w hlt h ih =>
    have hmove (t : List Char) : List.replicate k quoteMark ++ (quoteMark :: t) =
        List.replicate (k + 1) quoteMark ++ t := by
      rw [List.replicate_succ', List.append_assoc]
      rfl
    rw [List.cons_append, hmove, hmove, ih (by omega), List.length_cons]
    congr 2
    omega
  | @char k c cs s w hc h ih =>
    have hhead := hc.head?_ne hne (w ++ (List.replicate 3 quoteMark ++ r))
    have hquotes : longFrom quoteMark done n
        (List.replicate k quoteMark ++ (cs ++ (w ++ (List.replicate 3 quoteMark ++ r)))) =
          longFrom quoteMark (List.replicate k quoteMark ++ done) (n + k)
            (cs ++ (w ++ (List.replicate 3 quoteMark ++ r))) := by
      rcases Nat.eq_zero_or_pos k with rfl | hpos
      · rfl
      · rw [longFrom_replicate hpos hhead, if_pos (by omega)]
    have hrest := ih (by omega) (c :: (List.replicate k quoteMark ++ done)) (n + k + cs.length)
    rw [List.replicate_zero, List.nil_append] at hrest
    rw [List.append_assoc, hquotes, longFrom_spells hc hne, hrest, List.length_append]
    congr 2
    · simp
    · omega

theorem spellsLong_escapeFrom (s : List Char) (hk : k ≤ 2) :
    SpellsLong '"' k s (escapeFrom true k s) := by
  induction s generalizing k with
  | nil => exact .nil k
  | cons c s ih =>
    rw [escapeFrom]
    by_cases hquote : c = '"'
    · rw [if_pos (by simpa using hquote), hquote]
      simp only [if_true]
      split_ifs with hlt
      · exact .quote hlt (ih hlt)
      · exact .char (spells_doubleQuote true) (ih (Nat.zero_le 2))
    · rw [if_neg (by simpa using hquote)]
      exact .char (spells_escapeChar true hquote) (ih (Nat.zero_le 2))

theorem le_longestRun (c : Char) (k m : Nat) (s : List Char) : m ≤ longestRun c k m s := by
  induction s generalizing k m with
  | nil => exact le_rfl
  | cons d s ih =>
    rw [longestRun]
    split_ifs
    · exact (le_max_left _ _).trans (ih _ _)
    · exact ih _ _

theorem not_mem_of_longestRun (h : longestRun c k 0 s = 0) : c ∉ s := by
  induction s generalizing k with
  | nil => exact List.not_mem_nil
  | cons d s ih =>
    rw [longestRun] at h
    split_ifs at h with hd
    · have hle := le_longestRun c (k + 1) (max 0 (k + 1)) s
      omega
    · rw [List.mem_cons, not_or]
      exact ⟨fun heq => hd (by simp [heq]), ih h⟩

/-- A text stands for itself if it has no control characters and no three quotes in a row. -/
theorem spellsLong_self {m : Nat} (hcontrol : ∀ c ∈ s, isControl c = false)
    (hquote : quoteMark ≠ '"') (hrun : longestRun quoteMark k m s ≤ 2) : SpellsLong quoteMark k s s := by
  induction s generalizing k m with
  | nil => exact .nil k
  | cons c s ih =>
    obtain ⟨hc, hs⟩ := List.forall_mem_cons.mp hcontrol
    rw [longestRun] at hrun
    by_cases hsame : c = quoteMark
    · rw [if_pos (by simpa using hsame)] at hrun
      have hle := le_longestRun quoteMark (k + 1) (max m (k + 1)) s
      rw [hsame]
      exact .quote (by omega) (ih hs hrun)
    · rw [if_neg (by simpa using hsame)] at hrun
      have hspells : Spells quoteMark true c [c] := by
        by_cases hbreak : c = '\n'
        · exact .lineBreak rfl hbreak hsame
        · exact .plain (isPlain_of_not_isControl hc hbreak) hsame fun h => absurd h hquote
      exact .char hspells (ih hs hrun)

/-- A long text begins with a line break only where it holds one. -/
theorem SpellsLong.breakLength_eq_zero (h : SpellsLong quoteMark k s w) (hs : '\n' ∉ s)
    (hfeed : quoteMark ≠ '\n') (hreturn : quoteMark ≠ '\r') (r : List Char) :
    breakLength (w ++ (quoteMark :: r)) = 0 := by
  apply breakLength_of_ne
  cases h with
  | nil => simp [hfeed, hreturn]
  | quote => simp [hfeed, hreturn]
  | @char _ c cs s w hc =>
    cases hc with
    | escape => simp
    | plain h =>
      have hne : c ≠ '\n' ∧ c ≠ '\r' := by
        constructor <;> rintro rfl <;> exact absurd h (by decide)
      simpa using hne
    | lineBreak _ h => exact absurd (h ▸ List.mem_cons_self) hs

/-! ### Texts with their quotes -/

theorem text?_of_ne (h : r.head? ≠ some quoteMark) :
    text? (quoteMark :: r) = text?.short (quoteMark :: r) := by
  unfold text?
  split
  case h_1 a b c r' heq =>
    obtain ⟨rfl, rfl⟩ := List.cons.inj heq
    have hne : (quoteMark == b) = false := by
      rw [beq_eq_false_iff_ne]
      rintro rfl
      exact h rfl
    simp [hne]
  case h_2 => rfl

theorem text?_of_ne_second (h : r.head? ≠ some quoteMark) :
    text? (quoteMark :: quoteMark :: r) = text?.short (quoteMark :: quoteMark :: r) := by
  unfold text?
  split
  case h_1 a b c r' heq =>
    simp only [List.cons.injEq] at heq
    obtain ⟨rfl, rfl, rfl⟩ := heq
    have hne : (quoteMark == c) = false := by
      rw [beq_eq_false_iff_ne]
      rintro rfl
      exact h rfl
    simp [hne]
  case h_2 => rfl

theorem text?_three (quoteMark : Char) (r : List Char) :
    text? (quoteMark :: quoteMark :: quoteMark :: r) =
      longFrom quoteMark [] (3 + breakLength r) (r.drop (breakLength r)) := by
  simp [text?]

/-- What follows a text in quotes does not go on with a quote. -/
def Ends (r : List Char) : Prop :=
  ∀ c ∈ r.head?, c ≠ '"' ∧ c ≠ '\''

theorem Ends.double (h : Ends r) : r.head? ≠ some '"' :=
  fun hr => (h _ hr).1 rfl

theorem Ends.single (h : Ends r) : r.head? ≠ some '\'' :=
  fun hr => (h _ hr).2 rfl

theorem text?_double (s : List Char) (hr : Ends r) :
    text? ('"' :: (escapeFrom false 0 s ++ '"' :: r)) =
      some (String.ofList s, (escapeFrom false 0 s).length + 2) := by
  have hshort : text? ('"' :: (escapeFrom false 0 s ++ '"' :: r)) =
      basicFrom [] 1 (escapeFrom false 0 s ++ '"' :: r) := by
    cases s with
    | nil => exact text?_of_ne_second hr.double
    | cons c s =>
      obtain ⟨cs, hcs, heq⟩ := exists_spells_escapeFrom c s
      rw [heq, List.append_assoc]
      exact text?_of_ne (hcs.head?_ne (by decide) _)
  rw [hshort, basicFrom_escapeFrom, List.reverse_nil, List.nil_append, Nat.add_comm 1]

theorem text?_single (h : ∀ c ∈ s, isPlain c = true ∧ c ≠ '\'') (hr : Ends r) :
    text? ('\'' :: (s ++ '\'' :: r)) = some (String.ofList s, s.length + 2) := by
  have hshort : text? ('\'' :: (s ++ '\'' :: r)) =
      (literalFrom (s ++ '\'' :: r)).map fun read => (read.1, read.2 + 1) := by
    cases s with
    | nil => exact text?_of_ne_second hr.single
    | cons c s =>
      have hc := (h c List.mem_cons_self).2
      exact text?_of_ne (by simpa using hc)
  rw [hshort, literalFrom_append h]
  rfl

theorem text?_long (h : SpellsLong quoteMark 0 s w) (hquote : quoteMark = '"' ∨ quoteMark = '\'')
    (hr : Ends r) :
    text? (quoteMark :: quoteMark :: quoteMark ::
      ((firstBreak s).toList ++ (w ++ (List.replicate 3 quoteMark ++ r)))) =
        some (String.ofList s, (firstBreak s).toList.length + w.length + 6) := by
  obtain ⟨hslash, hfeed, hreturn⟩ : quoteMark ≠ '\\' ∧ quoteMark ≠ '\n' ∧ quoteMark ≠ '\r' := by
    rcases hquote with rfl | rfl <;> decide
  have hend : r.head? ≠ some quoteMark := by
    rcases hquote with rfl | rfl
    · exact hr.double
    · exact hr.single
  -- a line break in front is passed over, and there is one only if it was put there
  have hskipped : breakLength ((firstBreak s).toList ++ (w ++ (List.replicate 3 quoteMark ++ r))) =
      (firstBreak s).toList.length := by
    unfold firstBreak
    split_ifs with hbreak
    · rfl
    · exact h.breakLength_eq_zero (by simpa using hbreak) hfeed hreturn _
  rw [text?_three, hskipped, List.drop_left]
  have hread := longFrom_of_spellsLong h (Nat.zero_le 2) hslash []
    (3 + (firstBreak s).toList.length) hend
  rw [List.replicate_zero, List.nil_append] at hread
  rw [hread]
  congr 2
  omega

theorem of_quotesFor_eq_single (h : quotesFor s = .single) :
    ∀ c ∈ s, isPlain c = true ∧ c ≠ '\'' := by
  unfold quotesFor at h
  dsimp only at h
  split_ifs at h with _ hsingle
  simp only [Bool.and_eq_true, Bool.not_eq_true', List.any_eq_false, beq_iff_eq,
    List.contains_eq_mem, decide_eq_false_iff_not] at hsingle
  obtain ⟨⟨hcontrol, hrun⟩, hbreak⟩ := hsingle
  intro c hc
  refine ⟨isPlain_of_not_isControl (by simpa using hcontrol c hc) ?_, ?_⟩
  · rintro rfl
    exact hbreak hc
  · rintro rfl
    exact not_mem_of_longestRun hrun hc

theorem of_quotesFor_eq_tripleSingle (h : quotesFor s = .tripleSingle) :
    (∀ c ∈ s, isControl c = false) ∧ longestRun '\'' 0 0 s ≤ 2 := by
  unfold quotesFor at h
  dsimp only at h
  split_ifs at h with _ _ _ htriple
  simpa using htriple

theorem exists_quote (text : String) :
    ∃ c cs, (quote text).toList = c :: cs ∧ (c = '"' ∨ c = '\'') := by
  have hhead : ∃ c, (quote text).toList.head? = some c ∧ (c = '"' ∨ c = '\'') := by
    unfold quote
    dsimp only
    split <;> simp
  obtain ⟨c, hc, hmark⟩ := hhead
  obtain ⟨cs, hcs⟩ := List.head?_eq_some_iff.mp hc
  exact ⟨c, cs, hcs, hmark⟩

/-- Whatever a text holds, it is read from its quoted form. -/
theorem text?_quote (text : String) (hr : Ends r) :
    text? ((quote text).toList ++ r) = some (text, (quote text).toList.length) := by
  unfold quote
  dsimp only
  split
  case h_1 =>
    have hread := text?_double text.toList hr
    simp only [String.toList_append, String.toList_ofList, List.append_assoc]
    refine hread.trans ?_
    simp
  case h_2 hquotes =>
    have hread := text?_single (of_quotesFor_eq_single hquotes) hr
    simp only [String.toList_append, List.append_assoc]
    refine hread.trans ?_
    simp
  case h_3 =>
    have hread := text?_long (spellsLong_escapeFrom text.toList (Nat.zero_le 2)) (.inl rfl) hr
    simp only [String.toList_append, String.toList_ofList, List.append_assoc]
    refine hread.trans ?_
    simp
    omega
  case h_4 hquotes =>
    obtain ⟨hcontrol, hrun⟩ := of_quotesFor_eq_tripleSingle hquotes
    have hread := text?_long (spellsLong_self hcontrol (by decide) hrun) (.inr rfl) hr
    simp only [String.toList_append, List.append_assoc]
    refine hread.trans ?_
    simp
    omega

end PhpLint.Toml
