import PhpLint.Proofs.Token.Mode

/-!
What text behind a file does to its tokens: a token that has a close tag behind it is read in the
same way, whatever follows the close tag. No scanner looks past a close tag that it does not take.
-/
namespace PhpLint.Token

open Text (isBlank isHexDigit isTabOrSpace)

variable {s v : List Char}

/-- A close tag stands somewhere in a text. -/
def HasClose (s : List Char) : Prop :=
  ['?', '>'] <:+: s

namespace HasClose

theorem of_drop {n : Nat} (h : HasClose (s.drop n)) : HasClose s :=
  h.trans (List.drop_suffix n s).isInfix

theorem tail {c : Char} (hc : c ≠ '?') (h : HasClose (c :: s)) : HasClose s := by
  rcases List.infix_cons_iff.mp h with hbegin | hrest
  · exact absurd (List.cons_prefix_cons.mp hbegin).1.symm hc
  · exact hrest

theorem mem (h : HasClose s) : '?' ∈ s :=
  h.subset List.mem_cons_self

theorem length (h : HasClose s) : 2 ≤ s.length :=
  h.length_le

theorem ne_nil (h : HasClose s) : s ≠ [] :=
  List.ne_nil_of_mem h.mem

end HasClose

/-! ### Parts of tokens -/

theorem head?_append_of_mem {a : Char} (h : a ∈ s) : (s ++ v).head? = s.head? :=
  List.head?_append_of_ne_nil s (List.ne_nil_of_mem h)

/-- A character that ends a run keeps it from going on behind the text. -/
theorem takeWhile_append_of_mem {p : Char → Bool} {a : Char} (hp : p a = false) (h : a ∈ s) :
    (s ++ v).takeWhile p = s.takeWhile p := by
  induction s with
  | nil => contradiction
  | cons c s ih =>
    rw [List.cons_append, List.takeWhile_cons, List.takeWhile_cons]
    split_ifs with hc
    · rcases List.mem_cons.mp h with rfl | h
      · rw [hp] at hc
        contradiction
      · rw [ih h]
    · rfl

theorem run_append {p : Char → Bool} {a : Char} (hp : p a = false) (h : a ∈ s) :
    run p (s ++ v) = run p s := by
  unfold run
  rw [takeWhile_append_of_mem hp h]

theorem mem_drop_of_forall_ne {a : Char} {n : Nat} (hn : ∀ x ∈ s.take n, x ≠ a) (h : a ∈ s) :
    a ∈ s.drop n := by
  rw [← List.take_append_drop n s] at h
  exact (List.mem_append.mp h).resolve_left fun hmem => hn a hmem rfl

theorem mem_drop_run {p : Char → Bool} (hp : p '?' = false) (h : '?' ∈ s) :
    '?' ∈ s.drop (run p s) :=
  mem_drop_of_forall_ne (fun _ => ne_of_mem_run hp) h

theorem mem_drop_one {c : Char} (hc : s.head? = some c) (hne : c ≠ '?') (h : '?' ∈ s) :
    '?' ∈ s.drop 1 := by
  obtain ⟨r, rfl⟩ := List.head?_eq_some_iff.mp hc
  exact (List.mem_cons.mp h).resolve_left hne.symm

theorem drop_append_of_mem {a : Char} {n : Nat} (h : a ∈ s.drop n) :
    (s ++ v).drop n = s.drop n ++ v := by
  have hlt : n < s.length := by
    by_contra hle
    rw [List.drop_eq_nil_of_le (by omega)] at h
    contradiction
  exact List.drop_append_of_le_length hlt.le

theorem lineBreak_cons (c : Char) (r : List Char) :
    lineBreak (c :: r) =
      if c == '\n' then 1 else if c == '\r' && r.head? == some '\n' then 2 else 0 := by
  unfold lineBreak
  split
  · rename_i heq
    injection heq with hc hr
    rw [hc, hr]
    rfl
  · rename_i heq
    injection heq with hc
    rw [hc]
    rfl
  · rename_i hreturn hfeed
    have hboth : (c == '\r' && r.head? == some '\n') = false := by
      rw [Bool.eq_false_iff]
      intro h
      obtain ⟨hc, hr⟩ := Bool.and_eq_true_iff.mp h
      obtain ⟨rest, rfl⟩ := List.head?_eq_some_iff.mp (eq_of_beq hr)
      exact hreturn rest (by rw [eq_of_beq hc])
    rw [beq_false_of_ne fun hc => hfeed r (by rw [hc]), hboth]
    rfl

theorem lineBreak_append (h : '?' ∈ s) : lineBreak (s ++ v) = lineBreak s := by
  cases s with
  | nil => contradiction
  | cons c s =>
    rw [List.cons_append, lineBreak_cons, lineBreak_cons]
    rcases List.mem_cons.mp h with rfl | h
    · rfl
    · rw [head?_append_of_mem h]

theorem prefix_append_iff {w : List Char} (h : w.length ≤ s.length) : w <+: s ++ v ↔ w <+: s :=
  ⟨fun hw => List.prefix_of_prefix_length_le hw (List.prefix_append s v) h,
    fun hw => hw.trans (List.prefix_append s v)⟩

theorem isPrefixOf_append {w : List Char} (h : w.length ≤ s.length) :
    w.isPrefixOf (s ++ v) = w.isPrefixOf s := by
  rw [Bool.eq_iff_iff, List.isPrefixOf_iff_prefix, List.isPrefixOf_iff_prefix, prefix_append_iff h]

/-- What is found first in a text is found first in a longer one. -/
theorem find?_append_of_eq {p : List Char → Bool} {n : Nat} (hn : find? p s = some n)
    (hsame : ∀ i ≤ n, p (s.drop i ++ v) = p (s.drop i)) : find? p (s ++ v) = some n := by
  induction s generalizing n with
  | nil =>
    rw [Text.find?_nil] at hn
    split_ifs at hn with hp
    cases hn
    have hv : p v := (hsame 0 le_rfl).trans hp
    cases v with
    | nil => rw [List.nil_append, Text.find?_nil, if_pos hv]
    | cons c v => rw [List.nil_append, Text.find?_cons, if_pos hv]
  | cons c s ih =>
    have hfront : p (c :: (s ++ v)) = p (c :: s) := hsame 0 (Nat.zero_le n)
    rw [Text.find?_cons] at hn
    rw [List.cons_append, Text.find?_cons, hfront]
    split_ifs at hn ⊢ with hp
    · exact hn
    · obtain ⟨m, hm, rfl⟩ := Option.map_eq_some_iff.mp hn
      rw [ih hm fun i hi => hsame (i + 1) (by omega)]
      rfl

/-! ### Texts and open tags -/

theorem openTag?_of_not_begins (h : ¬ ['<', '?'] <+: s) : openTag? s = none := by
  unfold openTag?
  split
  · exact absurd ⟨_, rfl⟩ h
  · exact absurd ⟨_, rfl⟩ h
  · rfl

/-- Behind `<?` stands `=` or the word. -/
theorem openTag?_of_ne {c : Char} (hecho : c ≠ '=') (hword : c.toLower ≠ 'p') (r : List Char) :
    openTag? ('<' :: '?' :: c :: r) = none := by
  unfold openTag?
  split
  · rename_i heq
    simp only [List.cons.injEq, true_and] at heq
    exact absurd heq.1 hecho
  · rename_i heq
    simp only [List.cons.injEq, true_and] at heq
    rw [← heq.1, beq_false_of_ne hword]
    rfl
  · rfl

theorem openTag?_of_ne_word {a b c : Char} (hecho : a ≠ '=')
    (hword : [a, b, c].map Char.toLower ≠ ['p', 'h', 'p']) (r : List Char) :
    openTag? ('<' :: '?' :: a :: b :: c :: r) = none := by
  unfold openTag?
  split
  · rename_i heq
    simp only [List.cons.injEq, true_and] at heq
    exact absurd heq.1 hecho
  · rename_i heq
    simp only [List.cons.injEq, true_and] at heq
    obtain ⟨rfl, rfl, rfl, rfl⟩ := heq
    rw [if_neg]
    simpa [and_assoc] using hword
  · rfl

theorem afterWord_append (h : HasClose s) : afterWord (s ++ v) = afterWord s := by
  match s, h.length with
  | c :: d :: s, _ => rfl

/-- The mark of a close tag is no part of an open tag. -/
theorem openTag?_append (h : HasClose s) : openTag? (s ++ v) = openTag? s := by
  by_cases hfront : ['<', '?'] <+: s
  · obtain ⟨r, rfl⟩ := hfront
    have hmark : HasClose ('?' :: r) := h.tail (by decide)
    rcases List.infix_cons_iff.mp hmark with hbegin | hrest
    · obtain ⟨r, rfl⟩ := (List.cons_prefix_cons.mp hbegin).2
      exact (openTag?_of_ne (by decide) (by decide) _).trans
        (openTag?_of_ne (by decide) (by decide) _).symm
    have hrest : HasClose r := hrest
    obtain ⟨a, r, rfl⟩ := List.exists_cons_of_ne_nil hrest.ne_nil
    by_cases hecho : a = '='
    · rw [hecho]
      rfl
    by_cases ha : a.toLower = 'p'
    · have hrest : HasClose r := hrest.tail (by rintro rfl; contradiction)
      match r, hrest, hrest.length with
      | b :: c :: r, hrest, _ =>
        by_cases hword : [a, b, c].map Char.toLower = ['p', 'h', 'p']
        · have hb : b ≠ '?' := by
            rintro rfl
            simp at hword
          have hc : c ≠ '?' := by
            rintro rfl
            simp at hword
          have hbehind : HasClose r := (hrest.tail hb).tail hc
          exact (openTag?_php hword _).trans
            ((afterWord_append hbehind).trans (openTag?_php hword r).symm)
        · exact (openTag?_of_ne_word hecho hword _).trans (openTag?_of_ne_word hecho hword r).symm
    · exact (openTag?_of_ne hecho ha _).trans (openTag?_of_ne hecho ha r).symm
  · have hfront' : ¬ ['<', '?'] <+: s ++ v := fun hw => 
      hfront ((prefix_append_iff (w := ['<', '?']) h.length).mp hw)
    rw [openTag?_of_not_begins hfront, openTag?_of_not_begins hfront']

theorem scanText_append {c : Char} {kind : Kind} {n : Nat} (h : scanText c s = (kind, n))
    (hclose : HasClose (s.drop n)) : scanText c (s ++ v) = (kind, n) := by
  have hbehind : HasClose (c :: s) := hclose.of_drop.trans (List.suffix_cons c s).isInfix
  unfold scanText at h ⊢
  rw [← List.cons_append, openTag?_append hbehind]
  cases htag : openTag? (c :: s) with
  | some tag =>
    rw [htag] at h
    exact h
  | none =>
    rw [htag] at h
    cases hfind : find? (fun s => (openTag? s).isSome) s with
    | none =>
      rw [hfind] at h
      cases h
      exact absurd List.drop_length hclose.ne_nil
    | some m =>
      rw [hfind] at h
      cases h
      have hclose : HasClose (s.drop m) := hclose
      have hsame (i : Nat) (hi : i ≤ m) :
          (openTag? (s.drop i ++ v)).isSome = (openTag? (s.drop i)).isSome := by
        obtain ⟨k, rfl⟩ := Nat.exists_eq_add_of_le hi
        rw [← List.drop_drop] at hclose
        rw [openTag?_append hclose.of_drop]
      rw [find?_append_of_eq hfind hsame]
      rfl

/-! ### Comments -/

theorem lineComment_append (h : HasClose s) : lineComment 0 (s ++ v) = lineComment 0 s := by
  induction s with
  | nil => exact absurd rfl h.ne_nil
  | cons c s ih =>
    rw [List.cons_append, lineComment_cons, lineComment_cons 0 c s]
    rcases List.infix_cons_iff.mp h with hbegin | hrest
    · obtain ⟨rfl, hnext⟩ := List.cons_prefix_cons.mp hbegin
      obtain ⟨rest, rfl⟩ := hnext
      rfl
    · have hrest : HasClose s := hrest
      rw [head?_append_of_mem hrest.mem, lineComment_eq_add, ih hrest, lineComment_eq_add (0 + 1) s]

theorem blockComment_append {kind : Kind} {n : Nat} (h : blockComment s = .ok (kind, n)) :
    blockComment (s ++ v) = .ok (kind, n) := by
  cases hfind : find? (fun s => ['*', '/'].isPrefixOf s) s with
  | none =>
    unfold blockComment at h
    rw [hfind] at h
    contradiction
  | some m =>
    have hend : ['*', '/'] <+: s.drop m := List.isPrefixOf_iff_prefix.mp (Text.of_find? hfind).1
    have hlength : 2 ≤ (s.drop m).length := hend.length_le
    rw [List.length_drop] at hlength
    have hsame (i : Nat) (hi : i ≤ m) :
        ['*', '/'].isPrefixOf (s.drop i ++ v) = ['*', '/'].isPrefixOf (s.drop i) := by
      apply isPrefixOf_append
      change 2 ≤ _
      rw [List.length_drop]
      omega
    rw [← h]
    unfold blockComment
    rw [hfind, find?_append_of_eq hfind hsame]
    match s, (show 2 ≤ s.length by omega) with
    | c :: d :: s, _ =>
      by_cases hc : c = '*'
      · rw [hc]
        rfl
      · simp [hc]

/-! ### Quoted texts -/

/-- A character that closes its frame does so whatever follows. -/
theorem Frame.step_eq_nil {c : Char} {f : Frame} (h : f.step c none = []) (next : Option Char) :
    f.step c next = [] := by
  cases f with
  | quoted close =>
    rw [Frame.step] at h ⊢
    split_ifs at h ⊢
    rfl
  | _ => exact h

theorem closeFrames_append {n m : Nat} {fs : List Frame} (h : closeFrames n fs s = .ok m) :
    closeFrames n fs (s ++ v) = .ok m := by
  induction s generalizing n fs with
  | nil =>
    cases fs with
    | nil =>
      rw [closeFrames] at h ⊢
      exact h
    | cons f fs =>
      rw [closeFrames] at h
      contradiction
  | cons c s ih =>
    cases fs with
    | nil =>
      rw [closeFrames] at h ⊢
      exact h
    | cons f fs =>
      rw [closeFrames] at h
      rw [List.cons_append, closeFrames]
      cases s with
      | nil =>
        cases hstep : f.step c none ++ fs with
        | nil =>
          obtain ⟨hf, rfl⟩ := List.append_eq_nil_iff.mp hstep
          rw [List.head?_nil, hf, List.nil_append, closeFrames] at h
          rw [Frame.step_eq_nil hf, List.nil_append, closeFrames]
          exact h
        | cons g gs =>
          rw [List.head?_nil, hstep, closeFrames] at h
          contradiction
      | cons d s => exact ih h

/-! ### Heredocs -/

theorem closingLabel?_append {label : List Char} (hlabel : '?' ∉ label) (h : '?' ∈ s) :
    closingLabel? label (s ++ v) = closingLabel? label s := by
  have hrest : '?' ∈ s.drop (run isTabOrSpace s) := mem_drop_run rfl h
  unfold closingLabel?
  extract_lets indent line indent' line'
  have hindent : indent = indent' := run_append rfl h
  have hline : line = line' ++ v := by
    change (s ++ v).drop indent = _
    rw [hindent]
    exact drop_append_of_mem hrest
  rw [hindent, hline]
  by_cases hfront : label <+: line'
  · obtain ⟨r, hr⟩ := hfront
    have hbehind : '?' ∈ r := by
      have hmem : '?' ∈ line' := hrest
      rw [← hr] at hmem
      exact (List.mem_append.mp hmem).resolve_left hlabel
    have hfront' : label <+: line' ++ v := ⟨r ++ v, by rw [← List.append_assoc, hr]⟩
    rw [List.isPrefixOf_iff_prefix.mpr ⟨r, hr⟩, List.isPrefixOf_iff_prefix.mpr hfront', ← hr,
      List.append_assoc, List.drop_left, List.drop_left, head?_append_of_mem hbehind]
  · -- a label that is longer than the line would have its question mark
    have hfront' : ¬ label <+: line' ++ v := by
      intro hw
      rcases List.prefix_or_prefix_of_prefix hw (List.prefix_append line' v) with hw | hw
      · exact hfront hw
      · exact hlabel (hw.subset hrest)
    rw [Bool.eq_false_iff.mpr (List.isPrefixOf_iff_prefix.not.mpr hfront),
      Bool.eq_false_iff.mpr (List.isPrefixOf_iff_prefix.not.mpr hfront')]
    rfl

theorem heredocBody_append {label : List Char} (hlabel : '?' ∉ label) {n : Nat}
    (h : heredocBody label 0 s = some n) (hbehind : '?' ∈ s.drop n) :
    heredocBody label 0 (s ++ v) = some n := by
  induction s generalizing n with
  | nil => contradiction
  | cons c s ih =>
    rw [heredocBody, heredocBody_eq_map] at h
    rw [List.cons_append, heredocBody, heredocBody_eq_map]
    have hrest {m : Nat} (hm : (heredocBody label 0 s).map (0 + 1 + ·) = some m)
        (hmem : '?' ∈ (c :: s).drop m) :
        (heredocBody label 0 (s ++ v)).map (0 + 1 + ·) = some m := by
      obtain ⟨k, hk, rfl⟩ := Option.map_eq_some_iff.mp hm
      rw [Nat.zero_add, Nat.add_comm, List.drop_succ_cons] at hmem
      rw [ih hk hmem]
      rfl
    split_ifs at h ⊢ with hc
    · have hmem : '?' ∈ s := by
        refine (List.mem_cons.mp (List.mem_of_mem_drop hbehind)).resolve_left ?_
        rw [eq_of_beq hc]
        decide
      rw [closingLabel?_append hlabel hmem]
      cases hk : closingLabel? label s with
      | some k =>
        rw [hk] at h
        exact h
      | none =>
        rw [hk] at h
        exact hrest h hbehind
    · exact hrest h hbehind

theorem heredoc_append {kind : Kind} {n : Nat} (h : heredoc s = .ok (kind, n))
    (hbehind : '?' ∈ s.drop (n - 2)) : heredoc (s ++ v) = .ok (kind, n) := by
  have hs : '?' ∈ s := List.mem_of_mem_drop hbehind
  unfold heredoc at h ⊢
  extract_lets blanks opening quote quotes labelled label behind header at h
  extract_lets blanks' opening' quote' quotes' labelled' label' behind' header'
  have hblanks : blanks' = blanks := run_append rfl hs
  have hopening : '?' ∈ opening := mem_drop_run rfl hs
  have hopening' : opening' = opening ++ v := by
    change (s ++ v).drop blanks' = _
    rw [hblanks]
    exact drop_append_of_mem hopening
  have hquote : quote' = quote := by
    change opening'.head?.filter _ = opening.head?.filter _
    rw [hopening', head?_append_of_mem hopening]
  have hquotes : quotes' = quotes := by
    change (if quote'.isSome then 1 else 0) = _
    rw [hquote]
  have hskip {r : List Char} (hr : r.head? = quote ∨ quote = none) (hmem : '?' ∈ r) :
      '?' ∈ r.drop quotes := by
    cases hq : quote with
    | none =>
      have hzero : quotes = 0 := if_neg (by rw [hq]; exact Bool.false_ne_true)
      rw [hzero]
      exact hmem
    | some q =>
      have hone : quotes = 1 := if_pos (by rw [hq]; rfl)
      have hmark : q ≠ '?' := by
        rintro rfl
        have := (Option.filter_eq_some_iff.mp hq).2
        contradiction
      rw [hq] at hr
      rw [hone]
      exact mem_drop_one (hr.resolve_right nofun) hmark hmem
  have hlabelled : '?' ∈ labelled := by
    refine hskip ?_ hopening
    cases hq : quote with
    | none => exact Or.inr rfl
    | some q => exact Or.inl (Option.filter_eq_some_iff.mp hq).1
  have hlabelled' : labelled' = labelled ++ v := by
    change opening'.drop quotes' = _
    rw [hopening', hquotes]
    exact drop_append_of_mem hlabelled
  have hlabel : label' = label := by
    change labelled'.takeWhile isWordChar = _
    rw [hlabelled']
    exact takeWhile_append_of_mem rfl hlabelled
  have hrest : '?' ∈ behind := mem_drop_run (p := isWordChar) rfl hlabelled
  have hrest' : behind' = behind ++ v := by
    change labelled'.drop label'.length = _
    rw [hlabelled', hlabel]
    exact drop_append_of_mem hrest
  have hheader : header' = header := by
    change 2 + blanks' + quotes' + label'.length + quotes' = _
    rw [hblanks, hquotes, hlabel]
  rw [hlabelled', head?_append_of_mem hlabelled, hquote, hquotes, hrest', head?_append_of_mem hrest,
    hheader, hlabel]
  split_ifs at h ⊢ with hword hclosed
  · exact h
  · have hbody : '?' ∈ behind.drop quotes := by
      refine hskip ?_ hrest
      cases hq : quote with
      | none => exact Or.inr rfl
      | some q => simpa [hq] using hclosed
    rw [drop_append_of_mem hbody, heredocBody_eq_map]
    rw [heredocBody_eq_map] at h
    cases hlines : heredocBody label 0 (behind.drop quotes) with
    | none =>
      rw [hlines] at h
      contradiction
    | some m =>
      rw [hlines] at h
      cases h
      have hmark : '?' ∉ label := fun hmem => Bool.false_ne_true (List.mem_takeWhile_imp hmem)
      have hline : (behind.drop quotes).drop m = s.drop (header + m - 2) := by
        change ((((s.drop blanks).drop quotes).drop label.length).drop quotes).drop m = _
        rw [List.drop_drop, List.drop_drop, List.drop_drop, List.drop_drop]
        congr 1
        change _ = 2 + blanks + quotes + label.length + quotes + m - 2
        omega
      rw [heredocBody_append hmark hlines (hline ▸ hbehind)]
      rfl

/-! ### Casts, numbers and punctuation -/

theorem cast?_append (h : '?' ∈ s) : cast? (s ++ v) = cast? s := by
  have hword : '?' ∈ s.drop (run isTabOrSpace s) := mem_drop_run rfl h
  unfold cast?
  extract_lets before first word second after before' first' word' second' after'
  have hbefore : before = before' := run_append rfl h
  have hfirst : first = first' ++ v := by
    change (s ++ v).drop before = _
    rw [hbefore]
    exact drop_append_of_mem hword
  have hword' : word = word' := by
    change first.takeWhile Char.isAlpha = _
    rw [hfirst]
    exact takeWhile_append_of_mem rfl hword
  have hsecond : '?' ∈ second' := mem_drop_run (p := Char.isAlpha) rfl hword
  have hsecond' : second = second' ++ v := by
    change first.drop word.length = _
    rw [hfirst, hword']
    exact drop_append_of_mem hsecond
  have hafter : after = after' := by
    change run isTabOrSpace second = _
    rw [hsecond']
    exact run_append rfl hsecond
  have hclose : '?' ∈ second'.drop after' := mem_drop_run rfl hsecond
  rw [hbefore, hword', hsecond', hafter, drop_append_of_mem hclose, head?_append_of_mem hclose]

theorem exponent_append (h : '?' ∈ s) : exponent (s ++ v) = exponent s := by
  cases s with
  | nil => contradiction
  | cons c s =>
    rw [List.cons_append, exponent, exponent]
    by_cases hc : c == 'e' || c == 'E'
    · have hrest : '?' ∈ s := by
        refine (List.mem_cons.mp h).resolve_left ?_
        rintro rfl
        contradiction
      rw [if_pos hc, if_pos hc, head?_append_of_mem hrest]
      extract_lets sign digits digits'
      have hdigits : '?' ∈ s.drop sign := by
        by_cases hsign : s.head? == some '+' || s.head? == some '-'
        · have hone : sign = 1 := if_pos hsign
          rw [hone]
          rcases Bool.or_eq_true_iff.mp hsign with hplus | hminus
          · exact mem_drop_one (eq_of_beq hplus) (by decide) hrest
          · exact mem_drop_one (eq_of_beq hminus) (by decide) hrest
        · have hzero : sign = 0 := if_neg hsign
          rw [hzero]
          exact hrest
      have hsame : digits = digits' := by
        change run Char.isDigit ((s ++ v).drop sign) = _
        rw [drop_append_of_mem hdigits]
        exact run_append rfl hdigits
      rw [hsame]
    · rw [if_neg hc, if_neg hc]

theorem fraction_append (h : '?' ∈ s) : fraction (s ++ v) = fraction s := by
  cases s with
  | nil => contradiction
  | cons c s =>
    by_cases hc : c = '.'
    · subst hc
      have hrest : '?' ∈ s := (List.mem_cons.mp h).resolve_left (by decide)
      rw [List.cons_append, fraction, fraction, head?_append_of_mem hrest, run_append rfl hrest]
    · rw [List.cons_append, fraction_of_ne hc, fraction_of_ne hc]

theorem decimal_append (h : '?' ∈ s) : number.decimal (s ++ v) = number.decimal s := by
  have hwhole : '?' ∈ s.drop (run isDigitOrMark s) := mem_drop_run rfl h
  have hfraction : '?' ∈
      s.drop (run isDigitOrMark s + fraction (s.drop (run isDigitOrMark s))) := by
    rw [← List.drop_drop]
    exact mem_drop_of_forall_ne (fun _ => ne_of_mem_fraction) hwhole
  unfold number.decimal
  dsimp only
  rw [run_append rfl h, drop_append_of_mem hwhole, fraction_append hwhole,
    drop_append_of_mem hfraction, exponent_append hfraction]

theorem number_append (h : '?' ∈ s) : number (s ++ v) = number s := by
  cases s with
  | nil => contradiction
  | cons c s =>
    by_cases hc : c = '0'
    · subst hc
      have hrest : '?' ∈ s := (List.mem_cons.mp h).resolve_left (by decide)
      obtain ⟨radix, r, rfl⟩ := List.exists_cons_of_ne_nil (List.ne_nil_of_mem hrest)
      have hdecimal := decimal_append (v := v) h
      rw [List.cons_append, List.cons_append] at hdecimal ⊢
      rw [number, number, hdecimal]
      by_cases hradix : ['x', 'X', 'b', 'B', 'o', 'O'].contains radix
      · have hdigits : '?' ∈ r := by
          refine (List.mem_cons.mp hrest).resolve_left ?_
          rintro rfl
          contradiction
        have hlong : (r ++ v).isEmpty = r.isEmpty := by
          cases r with
          | nil => contradiction
          | cons d r => rfl
        rw [hlong, run_append rfl hdigits]
      · simp only [Bool.eq_false_iff.mpr hradix, Bool.false_and, Bool.false_eq_true, if_false]
    · rw [List.cons_append, number_of_ne hc, number_of_ne hc, ← List.cons_append, decimal_append h]

theorem scanOperator_append (c : Char) (h : 2 ≤ s.length) :
    scanOperator c (s ++ v) = scanOperator c s := by
  have hshort : ∀ op ∈ operators, op.toList.length ≤ 3 := by decide
  have hfind : operators.find? (fun op => op.toList.isPrefixOf (c :: (s ++ v))) =
      operators.find? (fun op => op.toList.isPrefixOf (c :: s)) := by
    refine List.find?_congr fun op hop => ?_
    exact isPrefixOf_append (s := c :: s) ((hshort op hop).trans (Nat.succ_le_succ h))
  unfold scanOperator
  rw [hfind]

/-! ### Code -/

/-- Conditions are alike if they decide alike and both their cases are alike. -/
theorem ite_eq_of_ite_eq {α : Type} {p : Prop} [Decidable p] {a b a' b' x : α}
    (h : (if p then a else b) = x) (hpos : p → a = x → a' = x) (hneg : ¬ p → b = x → b' = x) :
    (if p then a' else b') = x := by
  split_ifs at h ⊢ with hp
  · exact hpos hp h
  · exact hneg hp h

theorem scanCode_append {member : Bool} {c : Char} {kind : Kind} {n : Nat}
    (h : scanCode member c s = .ok (kind, n)) (hclose : HasClose (s.drop n)) :
    scanCode member c (s ++ v) = .ok (kind, n) := by
  have hs : HasClose s := hclose.of_drop
  have hshift : ['<', '<', '<'].isPrefixOf (c :: (s ++ v)) = ['<', '<', '<'].isPrefixOf (c :: s) :=
    isPrefixOf_append (s := c :: s) (Nat.succ_le_succ hs.length)
  have hone : (s ++ v).drop 1 = s.drop 1 ++ v :=
    List.drop_append_of_le_length (Nat.le_of_succ_le hs.length)
  have htwo : (s ++ v).drop 2 = s.drop 2 ++ v := List.drop_append_of_le_length hs.length
  have hquoted {fs : List Frame}
      (hframes : (closeFrames 0 fs s).map (Kind.string, ·) = .ok (kind, n)) :
      (closeFrames 0 fs (s ++ v)).map (Kind.string, ·) = .ok (kind, n) := by
    cases hm : closeFrames 0 fs s with
    | error e =>
      rw [hm] at hframes
      contradiction
    | ok m =>
      rw [hm] at hframes
      rw [closeFrames_append hm]
      exact hframes
  unfold scanCode at h ⊢
  dsimp only at h ⊢
  rw [head?_append_of_mem hs.mem, hshift, cast?_append hs.mem, hone, htwo]
  refine ite_eq_of_ite_eq h (fun hblank h => ?_) fun _ h => ?_
  · rw [run_append rfl hs.mem]
    exact h
  refine ite_eq_of_ite_eq h (fun htag h => ?_) fun _ h => ?_
  · cases h
    rw [← List.drop_drop] at hclose
    rw [lineBreak_append hclose.of_drop.mem]
  refine ite_eq_of_ite_eq h (fun hhash h => ?_) fun _ h => ?_
  · rw [lineComment_append hs]
    exact h
  refine ite_eq_of_ite_eq h (fun hline h => ?_) fun _ h => ?_
  · rw [lineComment_append hs]
    exact h
  refine ite_eq_of_ite_eq h (fun hblock h => blockComment_append h) fun _ h => ?_
  refine ite_eq_of_ite_eq h (fun hvariable h => ?_) fun _ h => ?_
  · rw [run_append rfl hs.mem]
    exact h
  refine ite_eq_of_ite_eq h (fun hseparator h => h) fun _ h => ?_
  refine ite_eq_of_ite_eq h (fun hsingle h => hquoted h) fun _ h => ?_
  refine ite_eq_of_ite_eq h (fun hdouble h => hquoted h) fun _ h => ?_
  refine ite_eq_of_ite_eq h (fun hmark h => heredoc_append h ?_) fun _ h => ?_
  · obtain ⟨r, hr⟩ := List.isPrefixOf_iff_prefix.mp hmark
    obtain ⟨_, rfl⟩ := List.cons.inj hr
    have hrest : HasClose r := (hs.tail (by decide)).tail (by decide)
    rw [List.drop_drop]
    rcases Nat.le_total 2 n with hn | hn
    · rw [Nat.add_sub_cancel' hn]
      exact hclose.mem
    · rw [Nat.sub_eq_zero_of_le hn]
      exact hrest.mem
  generalize (if (c == '(') = true then cast? s else none) = cast at h ⊢
  cases cast with
  | some k => exact h
  | none =>
    dsimp only at h ⊢
    refine ite_eq_of_ite_eq h (fun hnumber h => ?_) fun _ h => ?_
    · rw [← List.cons_append, number_append (List.mem_cons_of_mem c hs.mem)]
      exact h
    refine ite_eq_of_ite_eq h (fun hword h => ?_) fun _ h => ?_
    · have hlength : run isWordChar s ≤ s.length := (List.takeWhile_prefix isWordChar).length_le
      rw [run_append rfl hs.mem, List.take_append_of_le_length hlength]
      exact h
    · rw [scanOperator_append c hs.length]
      exact h

end PhpLint.Token
