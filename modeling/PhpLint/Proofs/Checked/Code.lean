import PhpLint.Proofs.Checked.Extent

/-! Tokens of code are the same among the bytes as among the characters. -/
namespace PhpLint.Checked

open Text Token

variable {ε : Type} {bs cs r : List Char} {c : Char} {i n : Nat} {p : Char → Bool}

/-! ### Heredocs -/

/-- A heredoc goes on line by line. -/
private theorem heredocBody_eq (label s : List Char) :
    heredocBody label 0 s = (find? ['\n'].isPrefixOf s).bind fun n =>
      ((closingLabel? label (s.drop (n + 1))).or (heredocBody label 0 (s.drop (n + 1)))).map
        (n + 1 + ·) := by
  induction s with
  | nil => rfl
  | cons c r ih =>
    rw [heredocBody, heredocBody_eq_map, find?_cons]
    by_cases hc : c = '\n'
    · subst hc
      rw [if_pos (beq_self_eq_true _), if_pos (by rfl), Option.bind_some, Nat.zero_add,
        List.drop_succ_cons, List.drop_zero]
      cases closingLabel? label r <;> rfl
    · have hbegin : ¬ ['\n'].isPrefixOf (c :: r) := by simp [Ne.symm hc]
      rw [if_neg (by simpa using hc), if_neg hbegin, ih]
      cases find? ['\n'].isPrefixOf r with
      | none => rfl
      | some n =>
        have hshift (m : Nat) : 0 + 1 + (n + 1 + m) = n + 1 + 1 + m := by omega
        simp [hshift, Function.comp_def]

/-- Where the heredoc ends whose line `s` starts at byte `i`. -/
def labelled (i : Nat) (label s : List Char) : Checked Obstacle Nat :=
  match (closingLabel? label s).or (heredocBody label 0 s) with
  | some n => .ok (i + width (s.take n))
  | none => .error (.error (.unterminated .heredoc))

theorem closingLabel_of_stands {i : Nat} {label s : List Char} (h : Stands bs i s) :
    closingLabel bs (octets label) i = labelled i label s := by
  have hstart := stands_skip h uniform_isTabOrSpace
  rw [closingLabel, dif_pos h.le]
  dsimp only
  rw [sliceFrom_of_stands hstart, ok_bind, sliceFrom_of_stands h, ok_bind, find?_octets (by simp)]
  let line := s.drop (run isTabOrSpace s)
  have hfits : ((octets label).isPrefixOf (octets line) &&
      !bs[skip isTabOrSpace bs i + (octets label).length]?.any isWordChar) =
      (label.isPrefixOf line && !(line.drop label.length).head?.any isWordChar) := by
    rw [octets_isPrefixOf_octets]
    by_cases hbegin : label.isPrefixOf line
    · obtain ⟨rest, hrest⟩ := List.isPrefixOf_iff_prefix.mp hbegin
      have hafter : Stands bs (skip isTabOrSpace bs i) (label ++ rest) := hrest ▸ hstart
      have hany := hafter.move.any uniform_isWordChar
      unfold width at hany
      rw [hany, ← hrest, List.drop_left]
    · rw [Bool.not_eq_true] at hbegin
      rw [hbegin, Bool.false_and, Bool.false_and]
  rw [hfits]
  by_cases hlabel : label.isPrefixOf line && !(line.drop label.length).head?.any isWordChar
  · have hclosing : closingLabel? label s = some (run isTabOrSpace s + label.length) := if_pos hlabel
    obtain ⟨rest, hrest⟩ := List.isPrefixOf_iff_prefix.mp (Bool.and_eq_true_iff.mp hlabel).1
    have hwidth : width (s.take (run isTabOrSpace s + label.length)) =
        width (s.take (run isTabOrSpace s)) + width label := by
      rw [List.take_add, width_append]
      change _ + width (line.take label.length) = _
      rw [← hrest, List.take_left]
    unfold labelled
    rw [if_pos hlabel, hclosing, Option.some_or, skip_of_stands h uniform_isTabOrSpace]
    dsimp only
    rw [hwidth, ← Nat.add_assoc]
    rfl
  · have hclosing : closingLabel? label s = none := if_neg hlabel
    unfold labelled
    rw [if_neg hlabel, hclosing, Option.none_or, heredocBody_eq]
    cases hn : find? ['\n'].isPrefixOf s with
    | none => rfl
    | some n =>
      have hwidth : width (s.take (n + 1)) = width (s.take n) + 1 :=
        width_take_found (w := ['\n']) (by simp) hn
      have hlt : (s.drop (n + 1)).length < s.length := by
        have hne : s ≠ [] := by
          rintro rfl
          rw [find?_nil] at hn
          contradiction
        have := List.length_pos_iff.mpr hne
        rw [List.length_drop]
        omega
      have hnext := h.moveBy (n + 1)
      rw [hwidth, ← Nat.add_assoc] at hnext
      dsimp only [Option.map_some, Option.bind_some]
      rw [closingLabel_of_stands hnext]
      unfold labelled
      cases (closingLabel? label (s.drop (n + 1))).or (heredocBody label 0 (s.drop (n + 1))) with
      | none => rfl
      | some m =>
        have htake : width (s.take (n + 1 + m)) =
            width (s.take n) + 1 + width ((s.drop (n + 1)).take m) := by
          rw [List.take_add, width_append, hwidth]
        dsimp only [Option.map_some]
        rw [htake, ← Nat.add_assoc, ← Nat.add_assoc]
termination_by s.length

/-- The lines of a heredoc, the header of which has `n + 1` characters. -/
private theorem heredocLines_of_stands {j : Nat} {label : List Char} (h : Stands bs i cs)
    (hj : Stands bs j (cs.drop (n + 1))) :
    (match find? ['\n'].isPrefixOf (octets (cs.drop (n + 1))) with
      | none => .error (.error (.unterminated .heredoc))
      | some m => do return (.heredoc, ← closingLabel bs (octets label) (j + m + 1))) =
    placed i cs (match heredocBody label n (cs.drop (n + 1)) with
      | some m => .ok (.heredoc, m)
      | none => .error (.unterminated .heredoc)) := by
  rw [find?_octets (by simp), heredocBody_eq_map, heredocBody_eq]
  cases hm : find? ['\n'].isPrefixOf (cs.drop (n + 1)) with
  | none => rfl
  | some m =>
    have hline := hj.moveBy (m + 1)
    have hwidth : width ((cs.drop (n + 1)).take (m + 1)) = width ((cs.drop (n + 1)).take m) + 1 :=
      width_take_found (w := ['\n']) (by simp) hm
    rw [hwidth, ← Nat.add_assoc] at hline
    dsimp only [Option.map_some, Option.bind_some]
    rw [closingLabel_of_stands hline]
    unfold labelled
    cases (closingLabel? label ((cs.drop (n + 1)).drop (m + 1))).or
        (heredocBody label 0 ((cs.drop (n + 1)).drop (m + 1))) with
    | none => rfl
    | some k =>
      have hlast := hline.moveBy k
      have hdrop : ((cs.drop (n + 1)).drop (m + 1)).drop k = cs.drop (n + (m + 1 + k) + 1) := by
        rw [List.drop_drop, List.drop_drop]
        congr 1
        omega
      rw [hdrop] at hlast
      exact (placed_ok h hlast).symm

theorem heredoc_of_stands (h : Stands bs i ('<' :: '<' :: '<' :: r)) :
    heredoc bs i = placed i ('<' :: '<' :: '<' :: r) (Token.heredoc r) := by
  have hindent := stands_skip (((h.next (by decide)).next (by decide)).next (by decide))
    uniform_isTabOrSpace
  have hascii (c : Char) (hc : c == '"' || c == '\'') : c.toNat < 0x80 := by
    rcases Bool.or_eq_true_iff.mp hc with hc | hc <;> rw [eq_of_beq hc] <;> decide
  unfold heredoc Token.heredoc
  dsimp only
  rw [hindent.filter hascii]
  let indented := r.drop (run isTabOrSpace r)
  generalize hquote : indented.head?.filter (fun c => c == '"' || c == '\'') = quote
  have hquotes (t : List Char) (j : Nat) (hj : Stands bs j t) (ht : quote.isSome → t.head? = quote) :
      Stands bs (j + if quote.isSome then 1 else 0) (t.drop (if quote.isSome then 1 else 0)) := by
    cases quote with
    | none => exact hj
    | some q => exact hj.step (hascii q (Option.filter_eq_some_iff.mp hquote).2) (ht rfl)
  have hlabel := hquotes indented _ hindent fun hsome => by
    obtain ⟨q, rfl⟩ := Option.isSome_iff_exists.mp hsome
    exact (Option.filter_eq_some_iff.mp hquote).1
  generalize hn : (if quote.isSome then 1 else 0) = quotes at hquotes hlabel ⊢
  rw [hlabel.any uniform_isWordStart]
  by_cases hstart : (indented.drop quotes).head?.any isWordStart
  · have hskip : ¬ (!(indented.drop quotes).head?.any isWordStart) := by rw [hstart]; decide
    have hend := hlabel.moveBy (run isWordChar (indented.drop quotes))
    rw [if_neg hskip, if_neg hskip, wordEnd_of_stands hlabel, ok_bind, slice_of_stands hlabel,
      ok_bind, take_run]
    rw [take_run] at hend
    let label := (indented.drop quotes).takeWhile isWordChar
    change Stands bs _ ((indented.drop quotes).drop label.length) at hend
    have hquoted : (quote.isSome && bs[skip isTabOrSpace bs (i + 3) + quotes + width label]? != quote) =
        (quote.isSome && ((indented.drop quotes).drop label.length).head? != quote) := by
      cases quote with
      | none => rfl
      | some q =>
        have hq : q.toNat < 0x80 := hascii q (Option.filter_eq_some_iff.mp hquote).2
        exact congrArg (fun b => true && !b) (hend.eq_some hq)
    rw [hquoted]
    by_cases hclosed : quote.isSome && ((indented.drop quotes).drop label.length).head? != quote
    · rw [if_pos hclosed, if_pos hclosed]
      rfl
    · rw [if_neg hclosed, if_neg hclosed]
      have hbody := hquotes _ _ hend fun hsome => by
        simpa [hsome] using hclosed
      have hrest : ((indented.drop quotes).drop label.length).drop quotes =
          ('<' :: '<' :: '<' :: r).drop
            (2 + run isTabOrSpace r + quotes + label.length + quotes + 1) := by
        have hcount : 2 + run isTabOrSpace r + quotes + label.length + quotes + 1 =
            run isTabOrSpace r + quotes + label.length + quotes + 3 := by omega
        rw [hcount, List.drop_succ_cons, List.drop_succ_cons, List.drop_succ_cons, List.drop_drop,
          List.drop_drop, Nat.add_assoc, Nat.add_assoc]
        exact List.drop_drop
      rw [hrest] at hbody
      rw [sliceFrom_of_stands hbody, ok_bind]
      change _ = placed i _ (match heredocBody label
        (2 + run isTabOrSpace r + quotes + label.length + quotes)
        (((indented.drop quotes).drop label.length).drop quotes) with
          | some n => .ok (.heredoc, n)
          | none => .error (.unterminated .heredoc))
      rw [hrest]
      exact heredocLines_of_stands h hbody
  · have hshift := h.moveBy 2
    have hskip : (!(indented.drop quotes).head?.any isWordStart) = true := by
      rw [Bool.not_eq_true] at hstart
      rw [hstart]
      rfl
    rw [if_pos hskip, if_pos hskip]
    exact (placed_ok h hshift).symm

/-! ### Casts, numbers and punctuation -/

theorem castLength_of_stands (h : Stands bs i ('(' :: r)) :
    (castLength bs i : Checked ε (Option Nat)) =
      .ok ((cast? r).map fun n => width (('(' :: r).take (n + 1))) := by
  have hopen := stands_zero ('(' :: r)
  have hstart := stands_skip (hopen.next (by decide)) uniform_isTabOrSpace
  have hword := stands_skip hstart uniform_isAlpha
  have hclose := stands_skip hword uniform_isTabOrSpace
  have hslice : (slice (octets ('(' :: r)) (skip isTabOrSpace (octets ('(' :: r)) 1)
      (skip Char.isAlpha (octets ('(' :: r)) (skip isTabOrSpace (octets ('(' :: r)) 1)) :
        Checked ε (List Char)) =
      .ok ((r.drop (run isTabOrSpace r)).takeWhile Char.isAlpha) := by
    have hascii : ∀ c ∈ (r.drop (run isTabOrSpace r)).takeWhile Char.isAlpha, c.toNat < 0x80 :=
      fun c hc => ascii_of_isAlpha (List.all_eq_true.mp List.all_takeWhile c hc)
    rw [skip_of_stands hstart uniform_isAlpha, slice_of_stands hstart, take_run,
      octets_of_ascii hascii]
  unfold castLength cast?
  rw [sliceFrom_of_stands h, ok_bind]
  dsimp only
  rw [hslice, ok_bind]
  generalize hchars : (r.drop (run isTabOrSpace r)).takeWhile Char.isAlpha = word at *
  by_cases htype : isCastType (String.ofList word)
  · have hne : word.isEmpty = false := by
      cases word with
      | nil => exact absurd htype (by decide)
      | cons => rfl
    have hlength : run Char.isAlpha (r.drop (run isTabOrSpace r)) = word.length := by
      rw [← hchars]
      rfl
    rw [hlength] at hclose
    let tail := (r.drop (run isTabOrSpace r)).drop word.length
    rw [hne, htype, hclose.eq_some (by decide), Bool.true_and]
    by_cases hparen : (tail.drop (run isTabOrSpace tail)).head? == some ')'
    · have hlast := hclose.step (by decide) (eq_of_beq hparen)
      have hdrop : (tail.drop (run isTabOrSpace tail)).drop 1 = ('(' :: r).drop
          (run isTabOrSpace r + word.length + run isTabOrSpace tail + 1 + 1) := by
        rw [List.drop_succ_cons, List.drop_drop, List.drop_drop, List.drop_drop]
        simp only [Nat.add_assoc]
      rw [if_pos hparen, if_pos hparen, Option.map_some, pure_eq_ok]
      change Stands _ _ ((tail.drop (run isTabOrSpace tail)).drop 1) at hlast
      rw [hdrop] at hlast
      have hwidth := hopen.eq_add_width _ hlast
      rw [Nat.zero_add, Nat.zero_add] at hwidth
      rw [hwidth]
      rfl
    · rw [if_neg hparen, if_neg hparen]
      rfl
  · rw [Bool.not_eq_true] at htype
    rw [htype]
    simp

theorem uniform_isDigitOrMark : Uniform isDigitOrMark := by
  apply uniform_of_ascii
  intro c hc
  rcases Bool.or_eq_true_iff.mp hc with hc | hc
  · exact ascii_of_isDigit hc
  · rw [eq_of_beq hc]
    decide

theorem fraction_of_stands (h : Stands bs i cs) :
    Stands bs (fractionEnd bs i) (cs.drop (fraction cs)) := by
  unfold fractionEnd
  rw [h.eq_some (by decide)]
  cases cs with
  | nil => exact h
  | cons c r =>
    by_cases hc : c = '.'
    · subst hc
      have hnext := h.next (by decide)
      have hpoint : (bs[i + 1]? != some '.') = !(r.head? == some '.') :=
        congrArg (fun b => !b) (hnext.eq_some (by decide))
      rw [hpoint, fraction]
      by_cases hr : r.head? == some '.'
      · rw [if_pos hr, if_neg (by simp [hr])]
        exact h
      · rw [if_neg hr, if_pos (by simp [hr]), Nat.add_comm 1, List.drop_succ_cons]
        exact stands_skip hnext uniform_isDigitOrMark
    · have hpoint : ((c :: r).head? == some '.') = false := by simpa using hc
      rw [hpoint, fraction_of_ne hc]
      exact h

theorem exponent_of_stands (h : Stands bs i cs) :
    Stands bs (exponentEnd bs i) (cs.drop (exponent cs)) := by
  unfold exponentEnd
  rw [h.eq_some (by decide), h.eq_some (by decide)]
  cases cs with
  | nil => exact h
  | cons c r =>
    have hhead (a : Char) : ((c :: r).head? == some a) = (c == a) := rfl
    rw [exponent, hhead, hhead]
    by_cases hmark : c == 'e' || c == 'E'
    · rw [if_pos hmark, if_pos hmark]
      have hascii : c.toNat < 0x80 := by
        rcases Bool.or_eq_true_iff.mp hmark with hc | hc <;> rw [eq_of_beq hc] <;> decide
      have hnext := h.next hascii
      rw [hnext.eq_some (by decide), hnext.eq_some (by decide)]
      have hsign : Stands bs (if (r.head? == some '+' || r.head? == some '-') then i + 2 else i + 1)
          (r.drop (if r.head? == some '+' || r.head? == some '-' then 1 else 0)) := by
        by_cases hsign : r.head? == some '+' || r.head? == some '-'
        · rw [if_pos hsign, if_pos hsign]
          rcases Bool.or_eq_true_iff.mp hsign with hr | hr
          · exact hnext.step (by decide) (eq_of_beq hr)
          · exact hnext.step (by decide) (eq_of_beq hr)
        · rw [if_neg hsign, if_neg hsign]
          exact hnext
      dsimp only
      generalize (if r.head? == some '+' || r.head? == some '-' then i + 2 else i + 1) = j at hsign ⊢
      generalize (if r.head? == some '+' || r.head? == some '-' then 1 else 0) = sign at hsign ⊢
      rw [hsign.any uniform_isDigit, run_eq_zero]
      by_cases hdigit : (r.drop sign).head?.any Char.isDigit
      · have hlast := stands_skip hsign uniform_isDigit
        rw [List.drop_drop] at hlast
        rw [if_pos hdigit, if_neg (by rw [hdigit]; decide), Nat.add_assoc, Nat.add_comm 1,
          List.drop_succ_cons]
        exact hlast
      · rw [if_neg hdigit, if_pos (by simpa using hdigit)]
        exact h
    · rw [if_neg hmark, if_neg hmark]
      exact h

theorem decimalLength_octets (s : List Char) :
    decimalLength (octets s) = width (s.take (number.decimal s)) := by
  have hwhole := stands_skip (stands_zero s) uniform_isDigitOrMark
  have hend := exponent_of_stands (fraction_of_stands hwhole)
  have hcount : number.decimal s = run isDigitOrMark s +
      (fraction (s.drop (run isDigitOrMark s)) + exponent
        ((s.drop (run isDigitOrMark s)).drop (fraction (s.drop (run isDigitOrMark s))))) := by
    unfold number.decimal
    rw [List.drop_drop, Nat.add_assoc]
  rw [List.drop_drop, List.drop_drop, ← hcount] at hend
  have hwidth := (stands_zero s).eq_add_width _ hend
  rw [Nat.zero_add] at hwidth
  exact hwidth

/-- Letters after which a number is written in another base. -/
def radixLetters : List Char :=
  ['x', 'X', 'b', 'B', 'o', 'O']

/-- Whether a number starts with a zero, a radix letter and one more character. -/
def startsRadix : List Char → Bool
  | zero :: letter :: _ :: _ => zero == '0' && radixLetters.contains letter
  | _ => false

private theorem ascii_of_radixLetter {c : Char} (h : radixLetters.contains c) : c.toNat < 0x80 := by
  have hall : radixLetters.all (fun d => d.toNat < 0x80) := by decide
  exact of_decide_eq_true (List.all_eq_true.mp hall c (List.contains_iff_mem.mp h))

private theorem exists_of_startsRadix {s : List Char} (h : startsRadix s) :
    ∃ letter d r, s = '0' :: letter :: d :: r ∧ radixLetters.contains letter := by
  unfold startsRadix at h
  split at h
  · rename_i zero letter d r
    obtain ⟨hzero, hletter⟩ := Bool.and_eq_true_iff.mp h
    exact ⟨letter, d, r, by rw [eq_of_beq hzero], hletter⟩
  · contradiction

theorem number_eq (s : List Char) :
    number s = if startsRadix s then 2 + run (fun c => isHexDigit c || c == '_') (s.drop 2)
      else number.decimal s := by
  unfold number
  split
  · rename_i letter r
    cases r with
    | nil => simp [startsRadix]
    | cons d r => simp [startsRadix, radixLetters]
  · rename_i hnot
    rw [if_neg]
    unfold startsRadix
    split
    · rename_i zero letter d r
      intro h
      exact hnot letter (d :: r) (by rw [eq_of_beq (Bool.and_eq_true_iff.mp h).1])
    · exact Bool.false_ne_true

theorem hasRadix_octets (s : List Char) :
    (hasRadix (octets s) : Checked ε Bool) = .ok (startsRadix s) := by
  unfold hasRadix
  split
  · rename_i hlength
    obtain ⟨a, b, d, rest, hbytes⟩ : ∃ a b d rest, octets s = a :: b :: d :: rest := by
      match hs : octets s with
      | [] => rw [hs] at hlength; contradiction
      | [a] => rw [hs] at hlength; contradiction
      | [a, b] => rw [hs] at hlength; contradiction
      | a :: b :: d :: rest => exact ⟨a, b, d, rest, rfl⟩
    rw [hbytes]
    change Except.ok (a == '0' && radixLetters.contains b) = Except.ok (startsRadix s)
    congr 1
    rw [Bool.eq_iff_iff, Bool.and_eq_true, beq_iff_eq]
    constructor
    · rintro ⟨rfl, hb⟩
      obtain ⟨s₁, rfl, hs₁⟩ := eq_cons_of_octets_eq_cons (by decide) hbytes
      obtain ⟨s₂, rfl, hs₂⟩ := eq_cons_of_octets_eq_cons (ascii_of_radixLetter hb) hs₁
      cases s₂ with
      | nil => contradiction
      | cons e t => simpa [startsRadix] using hb
    · intro hs
      obtain ⟨letter, e, t, rfl, hletter⟩ := exists_of_startsRadix hs
      rw [octets_cons, octets_cons letter, octets_singleton_of_ascii (by decide),
        octets_singleton_of_ascii (ascii_of_radixLetter hletter)] at hbytes
      injection hbytes with ha hbytes
      injection hbytes with hb
      exact ⟨ha.symm, hb ▸ hletter⟩
  · rename_i hlength
    have hnot : startsRadix s = false := by
      rw [Bool.eq_false_iff]
      intro hs
      obtain ⟨letter, e, t, rfl, _⟩ := exists_of_startsRadix hs
      apply hlength
      have he := width_pos (List.cons_ne_nil e t)
      have hletter := width_pos (List.cons_ne_nil letter [])
      change 2 < width ('0' :: letter :: e :: t)
      rw [width_cons, width_cons letter, width_singleton_of_ascii (by decide)]
      omega
    rw [hnot]
    rfl

theorem numberLength_octets (s : List Char) :
    (numberLength (octets s) : Checked ε Nat) = .ok (width (s.take (number s))) := by
  unfold numberLength
  rw [hasRadix_octets, ok_bind, number_eq]
  by_cases hradix : startsRadix s
  · have hhex : Uniform fun c => isHexDigit c || c == '_' := by
      apply uniform_of_ascii
      intro c hc
      rcases Bool.or_eq_true_iff.mp hc with hc | hc
      · exact ascii_of_isHexDigit hc
      · rw [eq_of_beq hc]
        decide
    have hdigits : Stands (octets s) 2 (s.drop 2) := by
      obtain ⟨letter, d, r, rfl, hletter⟩ := exists_of_startsRadix hradix
      exact ((stands_zero _).next (by decide)).next (ascii_of_radixLetter hletter)
    have hlast := stands_skip hdigits hhex
    rw [List.drop_drop] at hlast
    have hwidth := (stands_zero s).eq_add_width _ hlast
    rw [Nat.zero_add] at hwidth
    rw [if_pos hradix, if_pos hradix, pure_eq_ok, hwidth]
  · rw [if_neg hradix, if_neg hradix, decimalLength_octets]
    rfl

theorem operator_of_stands (h : Stands bs i (c :: r)) :
    operator bs i = placed i (c :: r) (scanOperator c r) := by
  have hascii (op : String) (hop : op ∈ operators) : ∀ d ∈ op.toList, d.toNat < 0x80 := by
    have hall : operators.all (fun op => op.toList.all fun d => d.toNat < 0x80) := by decide
    intro d hd
    exact of_decide_eq_true (List.all_eq_true.mp (List.all_eq_true.mp hall op hop) d hd)
  have hfind : (operators.find? fun op => op.toList.isPrefixOf (octets (c :: r))) =
      operators.find? fun op => op.toList.isPrefixOf (c :: r) :=
    List.find?_congr fun op hop => isPrefixOf_octets (hascii op hop) (c :: r)
  unfold operator scanOperator
  rw [sliceFrom_of_stands h, ok_bind, hfind]
  cases hop : operators.find? fun op => op.toList.isPrefixOf (c :: r) with
  | some op =>
    have hmem := List.mem_of_find?_eq_some hop
    have hbegin := List.find?_some (p := fun op : String => op.toList.isPrefixOf (c :: r)) hop
    obtain ⟨rest, hrest⟩ := List.isPrefixOf_iff_prefix.mp hbegin
    have hpositive : op.length - 1 + 1 = op.length := by
      have hall : operators.all (fun op => op.length != 0) := by decide
      have hne : op.length ≠ 0 := by simpa using List.all_eq_true.mp hall op hmem
      omega
    have hlast := (hrest ▸ h).move
    rw [width_of_ascii (hascii op hmem), String.length_toList] at hlast
    have hrest : rest = (c :: r).drop (op.length - 1 + 1) := by
      rw [hpositive, ← hrest, ← String.length_toList, List.drop_left]
    exact (placed_ok h (hrest ▸ hlast)).symm
  | none =>
    obtain ⟨b, hb, hclass⟩ := h.byte
    have hascii (d : Char) (hd : punctuation.contains d) : d.toNat < 0x80 := by
      have hall : punctuation.all (fun d => d.toNat < 0x80) := by decide
      exact of_decide_eq_true (List.all_eq_true.mp hall d (List.contains_iff_mem.mp hd))
    have hpunct : punctuation.contains b = punctuation.contains c :=
      hclass (punctuation.contains ·) (uniform_of_ascii hascii)
    dsimp only
    rw [hb, present_some, ok_bind, hpunct, cut_rest h, ok_bind, String.toList_ofList]
    split
    · rename_i hc
      exact (placed_ok h (h.next (hascii c hc))).symm
    · rfl

/-! ### Code -/

/-- A run of characters of one class, from its first character on. -/
theorem run_of_stands (h : Stands bs i (c :: r)) (hp : Uniform p) (hc : p c) :
    Stands bs (i + run p (octets (c :: r))) ((c :: r).drop (run p r + 1)) := by
  have hlast := h.skip hp
  rwa [h.drop, ← drop_run, run_cons_of_pos hc] at hlast

theorem lineComment_of_ascii (hfeed : (c == '\n') = false)
    (hclose : (c == '?' && r.head? == some '>') = false) :
    (do return (Kind.comment, i + (← lineCommentEnd (octets (c :: r)) 0)) :
      Checked Obstacle (Kind × Nat)) = placed i (c :: r) (.ok (.comment, lineComment 0 r)) := by
  have hcount : lineComment 0 (c :: r) = lineComment 0 r + 1 := by
    rw [lineComment_cons, hfeed, hclose, if_neg Bool.false_ne_true, if_neg Bool.false_ne_true,
      lineComment_eq_add, Nat.add_comm]
  rw [lineCommentEnd_of_stands (stands_zero _), hcount, Nat.zero_add]
  rfl

theorem lineBreak_of_stands (h : Stands bs i cs) :
    Stands bs (i + if ['\r', '\n'].isPrefixOf cs then 2 else if bs[i]? == some '\n' then 1 else 0)
      (cs.drop (lineBreak cs)) := by
  rw [h.eq_some (by decide)]
  by_cases hcrlf : ['\r', '\n'].isPrefixOf cs
  · rw [if_pos hcrlf]
    obtain ⟨t, rfl⟩ := List.isPrefixOf_iff_prefix.mp hcrlf
    exact (h.next (by decide)).next (by decide)
  rw [if_neg hcrlf]
  by_cases hlf : cs.head? == some '\n'
  · rw [if_pos hlf]
    obtain ⟨t, rfl⟩ := List.head?_eq_some_iff.mp (eq_of_beq hlf)
    exact h.next (by decide)
  rw [if_neg hlf]
  have hzero : lineBreak cs = 0 := by
    unfold lineBreak
    split
    · exact absurd rfl hcrlf
    · exact absurd rfl hlf
    · rfl
  rw [hzero]
  exact h

theorem quoted_of_stands (h : Stands bs i (c :: r)) (hc : c.toNat < 0x80) {qs : List Quote}
    (hq : Opened qs r) :
    (do return (Kind.string, ← closeQuotes bs qs (i + 1)) : Checked Obstacle (Kind × Nat)) =
      placed i (c :: r) ((closeFrames 0 (qs.map Quote.frame) r).map (.string, ·)) := by
  rw [closeQuotes_of_stands (h.next hc) hq]
  unfold ending
  cases closeFrames 0 (qs.map Quote.frame) r with
  | error e => rfl
  | ok n => exact (placed_ok h ((h.next hc).moveBy n)).symm

theorem number_pos (h : c.isDigit || (c == '.' && r.head?.any Char.isDigit)) :
    number (c :: r) - 1 + 1 = number (c :: r) := by
  have hpos : number (c :: r) ≠ 0 := by
    rw [number_eq]
    split
    · omega
    · unfold number.decimal
      by_cases hc : c.isDigit
      · have hmark : isDigitOrMark c := by
          unfold isDigitOrMark
          rw [hc, Bool.true_or]
        rw [run_cons_of_pos hmark]
        dsimp only
        omega
      · rw [Bool.not_eq_true] at hc
        rw [hc, Bool.false_or, Bool.and_eq_true, beq_iff_eq] at h
        obtain ⟨rfl, hr⟩ := h
        have hwhole : run isDigitOrMark ('.' :: r) = 0 := rfl
        have hpoint : (r.head? == some '.') = false := by
          cases r with
          | nil => rfl
          | cons d t =>
            rw [Bool.eq_false_iff]
            intro hd
            rw [List.head?_cons, beq_iff_eq, Option.some.injEq] at hd
            rw [hd] at hr
            change '.'.isDigit = true at hr
            contradiction
        dsimp only
        rw [hwhole, List.drop_zero, fraction, hpoint, if_neg Bool.false_ne_true]
        omega
  omega

theorem number_of_stands (h : Stands bs i (c :: r))
    (hc : c.isDigit || (c == '.' && r.head?.any Char.isDigit)) :
    (do return (Kind.number, i + (← numberLength (octets (c :: r)))) :
      Checked Obstacle (Kind × Nat)) =
    placed i (c :: r) (.ok (.number, number (c :: r) - 1)) := by
  have hlast := h.moveBy (number (c :: r))
  rw [← number_pos hc] at hlast
  rw [placed_ok h hlast, numberLength_octets, number_pos hc]
  rfl

theorem word_of_stands (h : Stands bs i (c :: r)) (hc : isWordStart c) (member : Bool) :
    (do
      let last ← wordEnd bs i
      let text ← cut bs i last
      return (if isReservedWord text && !member then .keyword else .name, last) :
      Checked Obstacle (Kind × Nat)) =
    placed i (c :: r) (.ok
      (if isReservedWord (String.ofList (c :: r.take (run isWordChar r))) && !member then .keyword
        else .name, run isWordChar r)) := by
  have hchar : isWordChar c := by
    unfold isWordChar
    rw [hc, Bool.true_or]
  rw [wordEnd_of_stands h, ok_bind, cut_of_stands h, ok_bind, run_cons_of_pos hchar]
  rfl

theorem scanCode_of_stands (h : Stands bs i (c :: r)) (member : Bool) :
    scanCode bs member i = placed i (c :: r) (Token.scanCode member c r) := by
  by_cases hc : c.toNat < 0x80
  · have hnext := h.next hc
    have htag : ['?', '>'].isPrefixOf (c :: r) = (c == '?' && r.head? == some '>') := by
      cases r with
      | nil => simp [List.isPrefixOf]
      | cons d t => simp [List.isPrefixOf, Bool.beq_comm]
    unfold scanCode Token.scanCode
    rw [h.getElem?_of_ascii hc, present_some, ok_bind, sliceFrom_of_stands h, ok_bind]
    dsimp only
    rw [hnext.eq_some (by decide), hnext.eq_some (by decide), hnext.eq_some (by decide),
      hnext.any uniform_isWordStart, hnext.any uniform_isDigit, isPrefixOf_octets (by simp),
      isPrefixOf_octets (by simp), htag]
    by_cases hblank : isBlank c
    · rw [if_pos hblank, if_pos hblank]
      exact (placed_ok h (run_of_stands h uniform_isBlank hblank)).symm
    rw [if_neg hblank, if_neg hblank]
    by_cases hclose : c == '?' && r.head? == some '>'
    · rw [if_pos hclose, if_pos hclose]
      obtain ⟨t, rfl⟩ := List.head?_eq_some_iff.mp (eq_of_beq (Bool.and_eq_true_iff.mp hclose).2)
      have hafter := hnext.next (by decide)
      rw [sliceFrom_of_stands hafter, ok_bind, isPrefixOf_octets (by simp)]
      have hlast := lineBreak_of_stands hafter
      have hcount : t.drop (lineBreak t) = (c :: '>' :: t).drop (1 + lineBreak t + 1) := by
        rw [Nat.add_comm 1, List.drop_succ_cons, List.drop_succ_cons]
      rw [hcount] at hlast
      exact (placed_ok h hlast).symm
    rw [if_neg hclose, if_neg hclose]
    by_cases hhash : c == '#'
    · rw [if_pos hhash, if_pos hhash]
      by_cases hattr : r.head? == some '['
      · rw [if_pos hattr, if_pos hattr]
        exact (placed_ok h hnext).symm
      rw [if_neg hattr, if_neg hattr]
      exact lineComment_of_ascii (by rw [eq_of_beq hhash]; rfl) (Bool.eq_false_iff.mpr hclose)
    rw [if_neg hhash, if_neg hhash]
    by_cases hline : c == '/' && r.head? == some '/'
    · rw [if_pos hline, if_pos hline]
      have hslash := eq_of_beq (Bool.and_eq_true_iff.mp hline).1
      exact lineComment_of_ascii (by rw [hslash]; rfl) (Bool.eq_false_iff.mpr hclose)
    rw [if_neg hline, if_neg hline]
    by_cases hblock : c == '/' && r.head? == some '*'
    · rw [if_pos hblock, if_pos hblock]
      obtain ⟨hslash, hstar⟩ := Bool.and_eq_true_iff.mp hblock
      obtain ⟨t, rfl⟩ := List.head?_eq_some_iff.mp (eq_of_beq hstar)
      rw [eq_of_beq hslash] at h ⊢
      exact blockComment_of_stands h
    rw [if_neg hblock, if_neg hblock]
    by_cases hvariable : c == '$' && r.head?.any isWordStart
    · rw [if_pos hvariable, if_pos hvariable, wordEnd_of_stands hnext]
      exact (placed_ok h (hnext.moveBy (run isWordChar r))).symm
    rw [if_neg hvariable, if_neg hvariable]
    by_cases hback : c == '\\'
    · rw [if_pos hback, if_pos hback]
      exact (placed_ok h hnext).symm
    rw [if_neg hback, if_neg hback]
    by_cases hsingle : c == '\''
    · rw [if_pos hsingle, if_pos hsingle]
      exact quoted_of_stands h hc ⟨nofun, nofun, nofun⟩
    rw [if_neg hsingle, if_neg hsingle]
    by_cases hdouble : c == '"' || c == '`'
    · rw [if_pos hdouble, if_pos hdouble]
      refine quoted_of_stands h hc ⟨?_, nofun, nofun⟩
      intro close hclose
      rw [List.mem_singleton] at hclose
      injection hclose with hclose
      rw [hclose]
      exact hc
    rw [if_neg hdouble, if_neg hdouble]
    by_cases hheredoc : ['<', '<', '<'].isPrefixOf (c :: r)
    · rw [if_pos hheredoc, if_pos hheredoc]
      obtain ⟨t, ht⟩ := List.isPrefixOf_iff_prefix.mp hheredoc
      rw [List.cons_append, List.cons.injEq] at ht
      obtain ⟨rfl, rfl⟩ := ht
      exact heredoc_of_stands h
    rw [if_neg hheredoc, if_neg hheredoc]
    have hcast : (if c == '(' then castLength bs i else pure none) =
        (.ok ((if c == '(' then cast? r else none).map fun n => width ((c :: r).take (n + 1))) :
          Checked Obstacle (Option Nat)) := by
      by_cases hopen : c == '('
      · rw [if_pos hopen, if_pos hopen]
        rw [eq_of_beq hopen] at h ⊢
        exact castLength_of_stands h
      · rw [if_neg hopen, if_neg hopen]
        rfl
    rw [hcast, ok_bind]
    cases if c == '(' then cast? r else none with
    | some n => rfl
    | none =>
      dsimp only [Option.map_none]
      by_cases hnumber : c.isDigit || (c == '.' && r.head?.any Char.isDigit)
      · rw [if_pos hnumber, if_pos hnumber]
        exact number_of_stands h hnumber
      rw [if_neg hnumber, if_neg hnumber]
      by_cases hword : isWordStart c
      · rw [if_pos hword, if_pos hword]
        exact word_of_stands h hword member
      rw [if_neg hword, if_neg hword]
      exact operator_of_stands h
  · have hc : 0x80 ≤ c.toNat := Nat.le_of_not_lt hc
    obtain ⟨b, hb, hclass⟩ := h.byte
    have hhigh : 0x80 ≤ b.toNat := by
      have huniform : Uniform fun x => decide (0x80 ≤ x.toNat) := by
        intro x y hx hy
        simp [hx, hy]
      simpa [hc] using hclass _ huniform
    have hblank : isBlank c = false := by
      rw [Bool.eq_false_iff]
      intro hblank
      have := ascii_of_isBlank hblank
      omega
    have hdigit : c.isDigit = false := by
      rw [Bool.eq_false_iff]
      intro hdigit
      have := ascii_of_isDigit hdigit
      omega
    have hword : isWordStart c := by
      unfold isWordStart
      simp [hc]
    have hne {a : Char} (ha : a.toNat < 0x80) : (c == a) = false := ne_of_high hc ha
    have hneb {a : Char} (ha : a.toNat < 0x80) : (b == a) = false := ne_of_high hhigh ha
    have hbegin (a : Char) (w : List Char) (ha : a.toNat < 0x80) :
        (a :: w).isPrefixOf (c :: r) = false := by
      rw [List.isPrefixOf_cons_cons, Bool.beq_comm, hne ha, Bool.false_and]
    have hscan : Token.scanCode member c r = .ok
        (if isReservedWord (String.ofList (c :: r.take (run isWordChar r))) && !member
          then .keyword else .name, run isWordChar r) := by
      unfold Token.scanCode
      simp [hblank, hdigit, hword, hne, hbegin]
    rw [hscan, ← word_of_stands h hword member]
    unfold scanCode
    rw [hb, present_some, ok_bind, sliceFrom_of_stands h, ok_bind, isPrefixOf_octets (by simp),
      isPrefixOf_octets (by simp), hbegin _ _ (by decide), hbegin _ _ (by decide),
      hclass _ uniform_isBlank, hclass _ uniform_isDigit, hclass _ uniform_isWordStart, hblank,
      hdigit, hword]
    simp [hneb]

end PhpLint.Checked
