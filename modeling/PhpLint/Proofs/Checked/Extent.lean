import PhpLint.Proofs.Checked.Scan
import PhpLint.Proofs.Token.Code

/-! The extents of tokens are the same among the bytes as among the characters. -/
namespace PhpLint.Checked

open Text Token

variable {ε : Type} {bs cs r : List Char} {c : Char} {i n : Nat} {p : Char → Bool}

/-- The end of an extent by its place among the bytes; `cs` starts at byte `pos`. -/
def placed (pos : Nat) (cs : List Char) (x : Except Obstacle Extent) :
    Checked Obstacle (Kind × Nat) :=
  ofExcept (x.map fun (kind, n) => (kind, pos + width (cs.take (n + 1))))

theorem sliceFrom_of_stands (h : Stands bs i cs) :
    (sliceFrom bs i : Checked ε (List Char)) = .ok (octets cs) := by
  rw [sliceFrom_eq_ok h.le, h.drop]

theorem placed_ok {kind : Kind} {last : Nat} (h : Stands bs i cs)
    (hlast : Stands bs last (cs.drop (n + 1))) : placed i cs (.ok (kind, n)) = .ok (kind, last) := by
  rw [h.eq_add_width _ hlast]
  rfl

theorem slice_of_stands (h : Stands bs i cs) (n : Nat) :
    (slice bs i (i + width (cs.take n)) : Checked ε (List Char)) = .ok (octets (cs.take n)) := by
  rw [slice_eq_ok (Nat.le_add_right _ _) (h.moveBy n).le, List.drop_take, h.drop,
    Nat.add_sub_cancel_left, take_width_octets]

theorem cut_of_stands (h : Stands bs i cs) (n : Nat) :
    (cut bs i (i + width (cs.take n)) : Checked ε String) = .ok (String.ofList (cs.take n)) := by
  have hlast := h.moveBy n
  have hdecode := fromUTF8?_octets (String.ofList (cs.take n))
  rw [String.toList_ofList] at hdecode
  unfold cut
  rw [slice_of_stands h, ok_bind, isBoundary_of_stands h, isBoundary_of_stands hlast, hdecode]
  rfl

theorem cut_rest (h : Stands bs i cs) :
    (cut bs i bs.length : Checked ε String) = .ok (String.ofList cs) := by
  have := @cut_of_stands ε _ _ _ h cs.length
  rwa [List.take_length, h.length] at this

theorem skip_of_stands (h : Stands bs i cs) (hp : Uniform p) :
    skip p bs i = i + width (cs.take (run p cs)) := by
  unfold skip
  rw [h.run hp]

theorem stands_skip (h : Stands bs i cs) (hp : Uniform p) :
    Stands bs (skip p bs i) (cs.drop (run p cs)) := by
  rw [drop_run]
  exact h.skip hp

theorem wordEnd_of_stands (h : Stands bs i cs) :
    (wordEnd bs i : Checked ε Nat) = .ok (i + width (cs.take (run isWordChar cs))) := by
  have hlength : bs.length - i = (octets cs).length := by
    rw [← h.drop, List.length_drop]
  unfold wordEnd
  rw [sliceFrom_of_stands h, ok_bind, sub_eq_ok h.le, ok_bind, pure_eq_ok, hlength,
    ← run_eq_findIdx, run_octets uniform_isWordChar]

/-! ### Open tags -/

/-- Three bytes that spell the word of an open tag are three characters. -/
private theorem eq_cons_of_octets_php {s : List Char}
    (h : ((octets s).take 3).map Char.toLower = ['p', 'h', 'p']) :
    ∃ a b c r, s = a :: b :: c :: r ∧ [a, b, c].map Char.toLower = ['p', 'h', 'p'] := by
  have hascii {c d : Char} (hd : c.toLower = d) (hlt : d.toNat < 0x80) : c.toNat < 0x80 :=
    ascii_of_toLower (hd ▸ hlt)
  obtain ⟨a, as, ha, hla, has⟩ := List.map_eq_cons_iff.mp h
  obtain ⟨b, bs, hb, hlb, hbs⟩ := List.map_eq_cons_iff.mp has
  obtain ⟨c, cs, hc, hlc, hcs⟩ := List.map_eq_cons_iff.mp hbs
  have hsplit : octets s = a :: b :: c :: (octets s).drop 3 := by
    rw [← List.take_append_drop 3 (octets s), ha, hb, hc, List.map_eq_nil_iff.mp hcs]
    simp
  obtain ⟨s₁, rfl, hs₁⟩ := eq_cons_of_octets_eq_cons (hascii hla (by decide)) hsplit
  obtain ⟨s₂, rfl, hs₂⟩ := eq_cons_of_octets_eq_cons (hascii hlb (by decide)) hs₁
  obtain ⟨s₃, rfl, hs₃⟩ := eq_cons_of_octets_eq_cons (hascii hlc (by decide)) hs₂
  exact ⟨a, b, c, s₃, rfl, by simp [hla, hlb, hlc]⟩

/-- The word of an open tag is three bytes. -/
private theorem octets_php {a b c : Char} (hword : [a, b, c].map Char.toLower = ['p', 'h', 'p'])
    (r : List Char) : octets (a :: b :: c :: r) = a :: b :: c :: octets r := by
  have hascii : ∀ x ∈ [a, b, c], x.toNat < 0x80 := by
    intro x hx
    apply ascii_of_toLower
    have hmem : x.toLower ∈ [a, b, c].map Char.toLower := List.mem_map_of_mem hx
    rw [hword] at hmem
    simp only [List.mem_cons, List.not_mem_nil, or_false] at hmem
    rcases hmem with h | h | h <;> rw [h] <;> decide
  change octets ([a, b, c] ++ r) = _
  rw [octets_append, octets_of_ascii hascii]
  rfl

theorem openTagLength_of_stands {s : List Char} (h : Stands bs i ('<' :: '?' :: s)) :
    (openTagLength bs i : Checked ε (Option Nat)) =
      .ok ((openTag? ('<' :: '?' :: s)).map (·.2)) := by
  have hs : Stands bs (i + 2) s := (h.next (by decide)).next (by decide)
  unfold openTagLength
  rw [sliceFrom_of_stands hs, ok_bind, List.head?_eq_getElem?,
    (stands_zero s).eq_some (by decide)]
  by_cases hecho : s.head? = some '='
  · obtain ⟨r, rfl⟩ := List.head?_eq_some_iff.mp hecho
    rfl
  rw [if_neg (by simpa using hecho)]
  by_cases hword : ((octets s).take 3).map Char.toLower = ['p', 'h', 'p']
  · obtain ⟨a, b, c, r, rfl, hphp⟩ := eq_cons_of_octets_php hword
    have hbytes := octets_php hphp r
    have hlength : 3 ≤ (octets (a :: b :: c :: r)).length := by
      rw [hbytes]
      simp
    rw [if_pos hlength, slice_eq_ok (Nat.zero_le 3) hlength, ok_bind, List.drop_zero, hword,
      openTag?_php hphp, if_pos (by decide), pure_eq_ok]
    congr 1
    have hafter : Stands (octets (a :: b :: c :: r)) 3 r := by
      refine ⟨by omega, ?_⟩
      rw [hbytes]
      rfl
    cases r with
    | nil =>
      rw [hafter.getElem?]
      rfl
    | cons d r =>
      obtain ⟨x, hx, hxd⟩ := hafter.byte
      have hcr : (x == '\r') = (d == '\r') := hxd _ (uniform_eq (by decide))
      have hlf : (x == '\n') = (d == '\n') := hxd _ (uniform_eq (by decide))
      have htab : isTabOrSpace x = isTabOrSpace d := hxd _ uniform_isTabOrSpace
      rw [hx]
      unfold afterWord
      dsimp only
      rw [hcr, hlf, htab]
      by_cases hd : d = '\r'
      · have hnext := (hafter.next (by rw [hd]; decide)).eq_some (show '\n'.toNat < 0x80 by decide)
        rw [hnext]
        split <;> [rfl; split <;> rfl]
      · rw [beq_false_of_ne hd, Bool.false_and, Bool.false_and, if_neg Bool.false_ne_true,
          if_neg Bool.false_ne_true]
        split <;> rfl
  · have hnone : openTag? ('<' :: '?' :: s) = none := by
      unfold openTag?
      split
      · rename_i heq
        simp only [List.cons.injEq, true_and] at heq
        rw [heq] at hecho
        exact absurd rfl hecho
      · rename_i a b c r _ heq
        simp only [List.cons.injEq, true_and] at heq
        rw [if_neg]
        intro hphp
        have hphp : [a, b, c].map Char.toLower = ['p', 'h', 'p'] := by simpa [and_assoc] using hphp
        rw [heq, octets_php hphp] at hword
        exact hword hphp
      · rfl
    rw [hnone]
    split
    · rename_i hlength
      rw [slice_eq_ok (Nat.zero_le 3) hlength, ok_bind, List.drop_zero, if_neg (by simpa using hword)]
      rfl
    · rfl

/-- The search for some places starts at the first of more places. -/
private theorem find?_of_imp {p q : List Char → Bool} (himp : ∀ s, q s → p s) (s : List Char) :
    match find? p s with
    | none => find? q s = none
    | some n => p (s.drop n) ∧ find? q s = (find? q (s.drop n)).map (· + n) := by
  induction s with
  | nil =>
    rw [find?_nil, find?_nil]
    by_cases hp : p []
    · rw [if_pos hp]
      refine ⟨hp, ?_⟩
      rw [List.drop_nil, find?_nil]
      split <;> rfl
    · rw [if_neg hp]
      exact if_neg fun hq => hp (himp _ hq)
  | cons c r ih =>
    rw [find?_cons]
    by_cases hp : p (c :: r)
    · rw [if_pos hp]
      refine ⟨hp, ?_⟩
      rw [List.drop_zero]
      cases find? q (c :: r) <;> rfl
    · rw [if_neg hp]
      have hq : ¬ q (c :: r) := fun hq => hp (himp _ hq)
      cases hn : find? p r with
      | none =>
        rw [hn] at ih
        change find? q (c :: r) = none
        rw [find?_cons, if_neg hq, ih]
        rfl
      | some n =>
        rw [hn] at ih
        refine ⟨ih.1, ?_⟩
        rw [List.drop_succ_cons, find?_cons, if_neg hq, ih.2, Option.map_map]
        rfl

private theorem prefix_of_openTag? {s : List Char} (h : (openTag? s).isSome) :
    ['<', '?'].isPrefixOf s := by
  unfold openTag? at h
  split at h
  · rfl
  · rfl
  · contradiction

theorem findOpenTag_of_stands {i : Nat} {s : List Char} (h : Stands bs i s) :
    (findOpenTag bs i : Checked ε (Option (Nat × Nat))) =
      .ok ((find? (fun s => (openTag? s).isSome) s).bind fun n =>
        (openTag? (s.drop n)).map fun (_, length) => (i + width (s.take n), length)) := by
  have hfind := find?_of_imp (fun s => @prefix_of_openTag? s) s
  unfold findOpenTag
  rw [dif_pos h.le, sliceFrom_of_stands h, ok_bind, find?_octets (by simp)]
  cases hn : find? ['<', '?'].isPrefixOf s with
  | none =>
    rw [hn] at hfind
    dsimp only at hfind
    rw [hfind]
    rfl
  | some n =>
    rw [hn] at hfind
    obtain ⟨hbegin, hskip⟩ := hfind
    obtain ⟨t, ht⟩ := List.isPrefixOf_iff_prefix.mp hbegin
    have hdrop : s.drop n = '<' :: '?' :: t := ht.symm
    have hstart := h.moveBy n
    rw [hdrop] at hstart
    have hrest : Stands bs (i + width (s.take n) + 2) t :=
      (hstart.next (by decide)).next (by decide)
    rw [hskip, Option.map_some]
    dsimp only
    rw [openTagLength_of_stands hstart, ok_bind, hdrop, find?_cons]
    cases htag : openTag? ('<' :: '?' :: t) with
    | some tag =>
      simp [hdrop, htag]
    | none =>
      have hmark : openTag? ('?' :: t) = none := rfl
      have hwidth (m : Nat) : width (s.take (m + 1 + 1 + n)) = width (s.take n) + 2 + width (t.take m) := by
        rw [Nat.add_comm (m + 1 + 1), List.take_add, hdrop, List.take_succ_cons, List.take_succ_cons,
          width_append, width_cons, width_cons '?', width_singleton_of_ascii (by decide),
          width_singleton_of_ascii (by decide)]
        omega
      have hdropAdd (m : Nat) : s.drop (m + 1 + 1 + n) = t.drop m := by
        rw [Nat.add_comm (m + 1 + 1), ← List.drop_drop, hdrop]
        rfl
      have hlt : t.length < s.length := by
        have := congrArg List.length hdrop
        rw [List.length_drop, List.length_cons, List.length_cons] at this
        omega
      rw [Option.isSome_none, if_neg Bool.false_ne_true, find?_cons, hmark, Option.isSome_none,
        if_neg Bool.false_ne_true]
      change findOpenTag bs (i + width (s.take n) + 2) = _
      rw [findOpenTag_of_stands hrest]
      cases find? (fun s => (openTag? s).isSome) t with
      | none => rfl
      | some m =>
        simp only [Option.map_some, Option.bind_some]
        rw [hdropAdd, hwidth]
        simp only [Nat.add_assoc]
termination_by s.length

/-! ### Comments -/

/-- A step of a scanner over a byte that is no character. -/
theorem ne_of_high {a b : Char} (hb : 0x80 ≤ b.toNat) (ha : a.toNat < 0x80) : (b == a) = false := by
  rw [beq_eq_false_iff_ne]
  rintro rfl
  omega

theorem lineCommentEnd_of_stands {i : Nat} {s : List Char} (h : Stands bs i s) :
    (lineCommentEnd bs i : Checked ε Nat) = .ok (i + width (s.take (lineComment 0 s))) := by
  induction s generalizing i with
  | nil =>
    have hend : i = bs.length := h.length
    rw [lineCommentEnd, dif_neg (by omega), hend]
    rfl
  | cons c r ih =>
    by_cases hc : c.toNat < 0x80
    · have hnext := h.next hc
      rw [lineCommentEnd, dif_pos h.lt, h.getElem?_of_ascii hc, present_some, ok_bind,
        hnext.eq_some (by decide), lineComment_cons, lineComment_eq_add (0 + 1)]
      split_ifs
      · rw [List.take_succ_cons, List.take_zero, width_singleton_of_ascii hc]
        rfl
      · rfl
      · rw [ih hnext, Nat.add_comm (0 + 1), List.take_succ_cons, width_cons,
          width_singleton_of_ascii hc, Nat.add_assoc]
    · have hc : 0x80 ≤ c.toNat := Nat.le_of_not_lt hc
      have hpass := h.pass hc (f := fun j => (lineCommentEnd bs j : Checked ε Nat)) (by
        intro j b hb hhigh
        obtain ⟨hj, _⟩ := List.getElem?_eq_some_iff.mp hb
        rw [lineCommentEnd, dif_pos hj, hb, present_some, ok_bind, ne_of_high hhigh (by decide),
          ne_of_high hhigh (by decide)]
        rfl)
      have hnext : Stands bs (i + width [c]) r := @Stands.move bs [c] i r h
      rw [hpass, ih hnext, lineComment_cons, ne_of_high hc (by decide), ne_of_high hc (by decide),
        Bool.false_and, if_neg Bool.false_ne_true, if_neg Bool.false_ne_true,
        lineComment_eq_add (0 + 1), Nat.add_comm (0 + 1), List.take_succ_cons,
        width_cons c (r.take _), Nat.add_assoc]

/-- The width of the characters up to and including a pattern that has been found. -/
theorem width_take_found {w s : List Char} {n : Nat} (hw : ∀ c ∈ w, c.toNat < 0x80)
    (h : find? w.isPrefixOf s = some n) :
    width (s.take (n + w.length)) = width (s.take n) + w.length := by
  obtain ⟨rest, hrest⟩ := List.isPrefixOf_iff_prefix.mp (of_find? h).1
  rw [List.take_add, ← hrest, List.take_left, width_append, width_of_ascii hw]

private theorem isDoc_eq (s : List Char) :
    (['/', '*', '*'].isPrefixOf (octets ('/' :: '*' :: s)) &&
        (octets ('/' :: '*' :: s))[3]?.any isBlank) =
      match s with
      | '*' :: c :: _ => isBlank c
      | _ => false := by
  rw [isPrefixOf_octets (by simp)]
  cases s with
  | nil => rfl
  | cons d r =>
    by_cases hd : d = '*'
    · subst hd
      have hafter := (((stands_zero ('/' :: '*' :: '*' :: r)).next (by decide)).next
        (by decide)).next (by decide)
      rw [hafter.any uniform_isBlank]
      cases r <;> rfl
    · have hstar : ['/', '*', '*'].isPrefixOf ('/' :: '*' :: d :: r) = false := by
        change (('*' == d) && List.isPrefixOf [] r) = false
        rw [beq_false_of_ne (Ne.symm hd), Bool.false_and]
      rw [hstar, Bool.false_and]
      split
      · rename_i heq
        injection heq with heq
        exact absurd heq hd
      · rfl

theorem blockComment_of_stands {s : List Char} (h : Stands bs i ('/' :: '*' :: s)) :
    blockComment bs i = placed i ('/' :: '*' :: s) (Token.blockComment s) := by
  have hbody := ((stands_zero ('/' :: '*' :: s)).next (by decide)).next (by decide)
  unfold blockComment Token.blockComment
  rw [sliceFrom_of_stands h, ok_bind, sliceFrom_of_stands hbody, ok_bind, find?_octets (by simp)]
  change _ = placed i _ (match find? ['*', '/'].isPrefixOf s with
    | none => .error (.unterminated .comment)
    | some n => _)
  cases hn : find? ['*', '/'].isPrefixOf s with
  | none => rfl
  | some n =>
    have hwidth := width_take_found (by simp) hn
    have htake : width (('/' :: '*' :: s).take (n + 3 + 1)) = 2 + width (s.take n) + 2 := by
      change width ('/' :: '*' :: s.take (n + 2)) = _
      rw [width_cons, width_cons '*', width_singleton_of_ascii (by decide),
        width_singleton_of_ascii (by decide)]
      change width (s.take (n + 2)) = width (s.take n) + 2 at hwidth
      omega
    unfold placed
    dsimp only [Option.map_some, Except.map]
    rw [htake, ofExcept_ok, pure_eq_ok, ← Nat.add_assoc, ← Nat.add_assoc]
    exact congrArg (fun b : Bool => Except.ok (if b then Kind.docComment else .comment, _))
      (isDoc_eq s)

/-! ### Quoted texts -/

/-- The frame that a quote opens. -/
def Quote.frame : Quote → Frame
  | .single => .single
  | .double close => .quoted close
  | .braces depth => .braces depth

/-- Quotes that are open in front of some text. Only the innermost may wait for its first brace. -/
structure Opened (qs : List Quote) (s : List Char) : Prop where
  ascii : ∀ close, .double close ∈ qs → close.toNat < 0x80
  outer : ∀ q ∈ qs.tail, q ≠ .braces 0
  innermost : qs.head? = some (.braces 0) → s.head? = some '\x7b'

/-- Where the frames in front of `s` are all closed, if `s` starts at byte `i`. -/
def ending (i : Nat) (fs : List Frame) (s : List Char) : Checked Obstacle Nat :=
  ofExcept ((closeFrames 0 fs s).map fun n => i + width (s.take n))

private theorem closeFrames_eq_map (n : Nat) (fs : List Frame) (s : List Char) :
    closeFrames n fs s = (closeFrames 0 fs s).map (n + ·) := by
  induction s generalizing n fs with
  | nil =>
    cases fs <;> rfl
  | cons c r ih =>
    cases fs with
    | nil => rfl
    | cons f fs =>
      rw [closeFrames, closeFrames, ih (n + 1), ih (0 + 1)]
      cases closeFrames 0 (f.step c r.head? ++ fs) r with
      | error e => rfl
      | ok m => exact congrArg Except.ok (Nat.add_assoc n 1 m)

theorem ending_cons (i : Nat) (f : Frame) (fs : List Frame) (c : Char) (r : List Char) :
    ending i (f :: fs) (c :: r) = ending (i + width [c]) (f.step c r.head? ++ fs) r := by
  unfold ending
  rw [closeFrames, closeFrames_eq_map]
  cases closeFrames 0 (f.step c r.head? ++ fs) r with
  | error e => rfl
  | ok m =>
    dsimp only [Except.map]
    rw [Nat.add_comm (0 + 1) m, List.take_succ_cons, width_cons, Nat.add_assoc]

/-- Quotes stay as they are over a byte that is no character of ASCII. -/
theorem closeQuotes_high {q : Quote} {qs : List Quote} {j : Nat} {b : Char}
    (hb : bs[j]? = some b) (hhigh : 0x80 ≤ b.toNat)
    (hascii : ∀ close, q = .double close → close.toNat < 0x80) :
    closeQuotes bs (q :: qs) j = closeQuotes bs (q :: qs) (j + 1) := by
  obtain ⟨hj, _⟩ := List.getElem?_eq_some_iff.mp hb
  have hne {a : Char} (ha : a.toNat < 0x80) : (b == a) = false := ne_of_high hhigh ha
  rw [closeQuotes, dif_pos hj, hb, present_some, ok_bind]
  cases q with
  | single => simp [hne]
  | double close =>
    have hclose : (b == close) = false := hne (hascii close rfl)
    simp [hne, hclose]
  | braces depth => simp [hne]

namespace Opened

variable {q q' : Quote} {qs : List Quote} {s t : List Char}

theorem tail (h : Opened (q :: qs) s) : Opened qs t where
  ascii close hc := h.ascii close (List.mem_cons_of_mem q hc)
  outer q' hq' := h.outer q' (List.mem_of_mem_tail hq')
  innermost hhead := absurd rfl (h.outer _ (List.mem_of_mem_head? hhead))

/-- The innermost quote makes way for another one. -/
theorem replace (h : Opened (q :: qs) s) (hascii : ∀ close, q' = .double close → close.toNat < 0x80)
    (hbrace : q' = .braces 0 → t.head? = some '\x7b') : Opened (q' :: qs) t where
  ascii close hc := by
    rcases List.mem_cons.mp hc with hc | hc
    · exact hascii close hc.symm
    · exact h.ascii close (List.mem_cons_of_mem q hc)
  outer := h.outer
  innermost hhead := hbrace (Option.some.inj hhead)

theorem keep (h : Opened (q :: qs) s) (hq : q ≠ .braces 0) : Opened (q :: qs) t :=
  h.replace (fun close hc => h.ascii close (hc ▸ List.mem_cons_self)) fun hzero => absurd hzero hq

/-- Another quote opens inside the innermost one. -/
theorem push (h : Opened (q :: qs) s) (hq : q ≠ .braces 0)
    (hascii : ∀ close, q' = .double close → close.toNat < 0x80)
    (hbrace : q' = .braces 0 → t.head? = some '\x7b') : Opened (q' :: q :: qs) t where
  ascii close hc := by
    rcases List.mem_cons.mp hc with hc | hc
    · exact hascii close hc.symm
    · exact h.ascii close hc
  outer q' hq' := by
    rcases List.mem_cons.mp hq' with rfl | hq'
    · exact hq
    · exact h.outer q' hq'
  innermost hhead := hbrace (Option.some.inj hhead)

end Opened

/-- After a backslash, which takes a whole character along. -/
private theorem closeQuotes_escape {q : Quote} {qs : List Quote} {i : Nat} {r : List Char}
    (h : Stands bs (i + 1) r) (hopened : Opened (q :: qs) r) (hq : q.construct = .string)
    (hrest : ∀ d r', r = d :: r' → closeQuotes bs (q :: qs) (i + 1 + width [d]) =
      ending (i + 1 + width [d]) (q.frame :: qs.map Quote.frame) r') :
    closeQuotes bs (q :: qs) (i + 2) =
      ending (i + 1) (.escape :: q.frame :: qs.map Quote.frame) r := by
  cases r with
  | nil =>
    have hend : i + 1 = bs.length := h.length
    rw [closeQuotes, dif_neg (by omega), hq]
    rfl
  | cons d r =>
    have hascii (close : Char) (hc : q = .double close) : close.toNat < 0x80 :=
      hopened.ascii close (hc ▸ List.mem_cons_self)
    rw [ending_cons]
    change _ = ending _ (q.frame :: qs.map Quote.frame) r
    rw [← hrest d r rfl]
    exact h.pass_first (f := fun j => closeQuotes bs (q :: qs) j) fun j b hb hhigh =>
      closeQuotes_high hb hhigh hascii

theorem closeQuotes_of_stands {qs : List Quote} {i : Nat} {s : List Char} (h : Stands bs i s)
    (hq : Opened qs s) : closeQuotes bs qs i = ending i (qs.map Quote.frame) s := by
  match qs, s with
  | [], s =>
    rw [closeQuotes]
    cases s <;> rfl
  | q :: qs, [] =>
    have hend : i = bs.length := h.length
    rw [closeQuotes, dif_neg (by omega)]
    cases q <;> rfl
  | q :: qs, c :: r =>
    have hascii (close : Char) (hc : q = .double close) : close.toNat < 0x80 :=
      hq.ascii close (hc ▸ List.mem_cons_self)
    rw [List.map_cons, ending_cons]
    by_cases hc : c.toNat < 0x80
    · have hnext := h.next hc
      have hescape (hne : q ≠ .braces 0) (hstring : q.construct = .string) :
          closeQuotes bs (q :: qs) (i + 2) =
            ending (i + 1) (.escape :: q.frame :: qs.map Quote.frame) r := by
        apply closeQuotes_escape hnext (hq.keep hne) hstring
        intro d r' hr
        have hlt : r'.length < (c :: r).length := by
          rw [hr, List.length_cons, List.length_cons]
          omega
        have hrest : Stands bs (i + 1 + width [d]) r' := by
          rw [hr] at hnext
          exact @Stands.move bs [d] (i + 1) r' hnext
        exact closeQuotes_of_stands hrest (hq.keep hne)
      rw [closeQuotes, dif_pos h.lt, h.getElem?_of_ascii hc, present_some, ok_bind,
        width_singleton_of_ascii hc]
      cases q with
      | single =>
        dsimp only
        rw [Quote.frame, Frame.step]
        by_cases hback : c == '\\'
        · rw [if_pos hback, if_pos hback]
          exact hescape (by simp) rfl
        rw [if_neg hback, if_neg hback]
        by_cases hend : c == '\''
        · rw [if_pos hend, if_pos hend]
          exact closeQuotes_of_stands hnext hq.tail
        rw [if_neg hend, if_neg hend]
        exact closeQuotes_of_stands hnext (hq.keep (by simp))
      | double close =>
        dsimp only
        rw [Quote.frame, Frame.step, hnext.eq_some (by decide), hnext.eq_some (by decide)]
        by_cases hback : c == '\\'
        · rw [if_pos hback, if_pos hback]
          exact hescape (by simp) rfl
        rw [if_neg hback, if_neg hback]
        by_cases hend : c == close
        · rw [if_pos hend, if_pos hend]
          exact closeQuotes_of_stands hnext hq.tail
        rw [if_neg hend, if_neg hend]
        by_cases hbrace : c == '\x7b' && r.head? == some '$'
        · -- the brace is read again, now inside the interpolation
          have hopen : c == '\x7b' := (Bool.and_eq_true_iff.mp hbrace).1
          rw [if_pos hbrace, if_pos hbrace, closeQuotes, dif_pos h.lt, h.getElem?_of_ascii hc,
            present_some, ok_bind]
          dsimp only
          rw [if_pos hopen]
          exact closeQuotes_of_stands hnext (hq.push (by simp) (by simp) (by simp))
        rw [if_neg hbrace, if_neg hbrace]
        by_cases hdollar : c == '$' && r.head? == some '\x7b'
        · have hopen : r.head? = some '\x7b' := eq_of_beq (Bool.and_eq_true_iff.mp hdollar).2
          rw [if_pos hdollar, if_pos hdollar]
          exact closeQuotes_of_stands hnext (hq.push (by simp) (by simp) fun _ => hopen)
        rw [if_neg hdollar, if_neg hdollar]
        exact closeQuotes_of_stands hnext (hq.keep (by simp))
      | braces depth =>
        dsimp only
        rw [Quote.frame, Frame.step]
        by_cases hbrace : c == '\x7b'
        · rw [if_pos hbrace, if_pos hbrace]
          exact closeQuotes_of_stands hnext (hq.replace (by simp) (by simp))
        rw [if_neg hbrace, if_neg hbrace]
        have hdepth : depth ≠ 0 := by
          rintro rfl
          have hopen := hq.innermost rfl
          rw [List.head?_cons, Option.some.injEq] at hopen
          exact hbrace (beq_iff_eq.mpr hopen)
        have hkeep : (Quote.braces depth) ≠ .braces 0 := fun heq => hdepth (by injection heq)
        by_cases hclose : c == '\x7d'
        · rw [if_pos hclose, if_pos hclose, sub_eq_ok (by omega), ok_bind]
          by_cases hone : depth ≤ 1
          · have hlast : (depth - 1 == 0) = true := by
              rw [beq_iff_eq]
              omega
            rw [if_pos hone, if_pos hlast]
            exact closeQuotes_of_stands hnext hq.tail
          · have hmore : ¬ (depth - 1 == 0) = true := by
              rw [beq_iff_eq]
              omega
            rw [if_neg hone, if_neg hmore]
            refine closeQuotes_of_stands hnext (hq.replace (by simp) ?_)
            intro hzero
            injection hzero
            omega
        rw [if_neg hclose, if_neg hclose]
        by_cases hsingle : c == '\''
        · rw [if_pos hsingle, if_pos hsingle]
          exact closeQuotes_of_stands hnext (hq.push hkeep (by simp) (by simp))
        rw [if_neg hsingle, if_neg hsingle]
        by_cases hdouble : c == '"'
        · rw [if_pos hdouble, if_pos hdouble]
          have hascii (close : Char) (heq : Quote.double '"' = .double close) :
              close.toNat < 0x80 := by
            injection heq with heq
            rw [← heq]
            decide
          exact closeQuotes_of_stands hnext (hq.push hkeep hascii (by simp))
        rw [if_neg hdouble, if_neg hdouble]
        exact closeQuotes_of_stands hnext (hq.keep hkeep)
    · have hc : 0x80 ≤ c.toNat := Nat.le_of_not_lt hc
      have hpass := h.pass hc (f := fun j => closeQuotes bs (q :: qs) j) fun j b hb hhigh =>
        closeQuotes_high hb hhigh hascii
      have hnext : Stands bs (i + width [c]) r := @Stands.move bs [c] i r h
      have hne : q ≠ .braces 0 := by
        rintro rfl
        have hopen := hq.innermost rfl
        rw [List.head?_cons, Option.some.injEq] at hopen
        rw [hopen] at hc
        exact absurd hc (by decide)
      have hstep : q.frame.step c r.head? = [q.frame] := by
        have hbeq {a : Char} (ha : a.toNat < 0x80) : (c == a) = false := ne_of_high hc ha
        cases q with
        | single => simp [Quote.frame, Frame.step, hbeq]
        | double close =>
          have hclose : (c == close) = false := hbeq (hascii close rfl)
          simp [Quote.frame, Frame.step, hbeq, hclose]
        | braces depth => simp [Quote.frame, Frame.step, hbeq]
      rw [hpass, hstep]
      exact closeQuotes_of_stands hnext (hq.keep hne)
termination_by s.length
decreasing_by all_goals first | exact hlt | exact Nat.lt_succ_self _

end PhpLint.Checked
