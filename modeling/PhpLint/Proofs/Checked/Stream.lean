import PhpLint.Proofs.Checked.Code
import PhpLint.Proofs.Token.Stream

/-!
Cutting a file into tokens by positions among its bytes. No text is cut inside a character, no
line counter overflows, and the tokens are those that are read from the characters.
-/
namespace PhpLint.Checked

open Text Token

variable {ε : Type} {bs cs r : List Char} {c : Char} {p : Position} {kind : Kind} {n : Nat}

/-! ### Reading by positions -/

/-- What has been read of a file. -/
structure Reading where
  pos : Nat
  line : Nat
  /-- The tokens so far, the last one first. -/
  tokens : List Token
  deriving Repr

namespace Reading

def start : Reading :=
  ⟨0, 1, []⟩

/-- The last token with syntax asks for a name. -/
def member (s : Reading) : Bool :=
  (s.tokens.find? (!·.isSpace)).any takesMemberName

/-- Cuts off the token that ends at byte `last`. -/
def emit (bs : List Char) (s : Reading) (kind : Kind) (last : Nat) : Checked ε Reading := do
  let text ← cut bs s.pos last
  let line ← add32 s.line (lineFeeds text % 2 ^ 32)
  return ⟨last, line, ⟨kind, text, s.line, s.tokens.length⟩ :: s.tokens⟩

/-- Reads the text in front of the next open tag, and the tag. -/
def text (bs : List Char) (s : Reading) : Checked ε Reading := do
  match ← findOpenTag bs s.pos with
  | none => s.emit bs .inlineHtml bs.length
  | some (start, length) =>
    let s ← if s.pos < start then s.emit bs .inlineHtml start else pure s
    let mark ← present bs[start + 2]?
    s.emit bs (if mark == '=' then .openTagWithEcho else .openTag) (start + length)

/-- Reads a token of code and tells whether it was a close tag. -/
def code (bs : List Char) (s : Reading) : Checked Fault (Bool × Reading) := do
  let (kind, last) ← mapFault (·.located s.pos s.line) (scanCode bs s.member s.pos)
  let s ← s.emit bs kind last
  return (kind == .closeTag, s)

/-- Reads up to the end of the file. -/
def run (bs : List Char) (inCode : Bool) (s : Reading) : Checked Fault (List Token) :=
  if _h : s.pos < bs.length then
    if inCode then do
      let (closed, s') ← s.code bs
      advance s.pos s'.pos fun _ => run bs (!closed) s'
    else do
      let s' ← s.text bs
      advance s.pos s'.pos fun _ => run bs true s'
  else return s.tokens.reverse
termination_by bs.length - s.pos

end Reading

/-- The bytes of a file, each as the character of its number. -/
def bytesOf (content : ByteArray) : List Char :=
  content.toList.map fun b => Char.ofNat b.toNat

/-- The tokens of a file's content. -/
def tokenize (content : ByteArray) : Checked Fault (List Token) :=
  match decode content with
  | .ok _ => Reading.start.run (bytesOf content) false
  | .error offset => do
    let before ← slice content.data.toList 0 (min offset content.size)
    let line ← add32 1 (before.count 10 % 2 ^ 32)
    .error (.error (.invalidUtf8 offset line))

/-! ### Readings and positions -/

/-- A reading stands where the tokens of `cs` start. -/
structure Reads (bs : List Char) (p : Position) (s : Reading) (cs : List Char) : Prop where
  stands : Stands bs s.pos cs
  index : p.index = s.tokens.length
  line : p.line = s.line
  offset : p.offset = s.pos
  member : p.member = s.member
  bound : s.line + cs.count '\n' < 2 ^ 32

/-- The reading after a token. -/
def Reading.next (s : Reading) (t : Token) : Reading :=
  ⟨s.pos + t.text.utf8ByteSize, s.line + lineFeeds t.text, t :: s.tokens⟩

/-- What the tokens of `cs` make of a reading. -/
def Reading.outcome (s : Reading) (p : Position) (cs : List Char) : Checked Fault (List Token) :=
  ofExcept ((tokensFrom p cs).map (s.tokens.reverse ++ ·))

variable {s : Reading}

theorem utf8ByteSize_token (p : Position) (kind : Kind) (c : Char) (r : List Char) (n : Nat) :
    (p.token kind c r n).text.utf8ByteSize = width ((c :: r).take (n + 1)) := by
  rw [List.take_succ_cons, width_ofList]
  rfl

theorem lineFeeds_token (p : Position) (kind : Kind) (c : Char) (r : List Char) (n : Nat) :
    lineFeeds (p.token kind c r n).text + (r.drop n).count '\n' = (c :: r).count '\n' := by
  unfold lineFeeds
  change (String.ofList (c :: r.take n)).toList.count '\n' + _ = _
  rw [String.toList_ofList, ← List.count_append, List.cons_append, List.take_append_drop]

theorem Reading.lt_next : s.pos < (s.next (p.token kind c r n)).pos := by
  change s.pos < s.pos + (p.token kind c r n).text.utf8ByteSize
  have := width_pos (List.cons_ne_nil c (r.take n))
  rw [utf8ByteSize_token, List.take_succ_cons]
  omega

theorem Reads.next (h : Reads bs p s (c :: r)) (kind : Kind) (n : Nat) :
    Reads bs (p.after (p.token kind c r n)) (s.next (p.token kind c r n)) (r.drop n) where
  stands := by
    unfold Reading.next
    rw [utf8ByteSize_token]
    exact h.stands.moveBy (n + 1)
  index := congrArg (· + 1) h.index
  line := congrArg (· + lineFeeds (p.token kind c r n).text) h.line
  offset := congrArg (· + (p.token kind c r n).text.utf8ByteSize) h.offset
  member := by
    unfold Position.after Reading.next Reading.member
    dsimp only
    rw [List.find?_cons, h.member]
    cases (p.token kind c r n).isSpace <;> rfl
  bound := by
    have hbound := h.bound
    rw [← lineFeeds_token p kind c r n, ← Nat.add_assoc] at hbound
    exact hbound

theorem emit_of_reads (h : Reads bs p s (c :: r)) (kind : Kind) (n : Nat) :
    (s.emit bs kind (s.pos + width ((c :: r).take (n + 1))) : Checked ε Reading) =
      .ok (s.next (p.token kind c r n)) := by
  have hbound := h.bound
  rw [← lineFeeds_token p kind c r n] at hbound
  have htext : String.ofList ((c :: r).take (n + 1)) = (p.token kind c r n).text := rfl
  have htoken : (⟨kind, (p.token kind c r n).text, s.line, s.tokens.length⟩ : Token) =
      p.token kind c r n := by
    rw [← h.line, ← h.index]
    rfl
  unfold Reading.emit Reading.next
  rw [cut_of_stands h.stands, ok_bind, htext, Nat.mod_eq_of_lt (by omega), add32_eq_ok (by omega),
    ok_bind, htoken, utf8ByteSize_token, pure_eq_ok]

theorem outcome_of_scan_ok (h : p.scan c r = .ok (kind, n)) : s.outcome p (c :: r) =
    (s.next (p.token kind c r n)).outcome (p.after (p.token kind c r n)) (r.drop n) := by
  unfold Reading.outcome
  rw [tokensFrom, h]
  change ofExcept ((tokensFrom (p.after (p.token kind c r n)) (r.drop n) >>= fun ts =>
    pure (p.token kind c r n :: ts)).map _) = _
  cases tokensFrom (p.after (p.token kind c r n)) (r.drop n) with
  | error e => rfl
  | ok ts =>
    change Except.ok (s.tokens.reverse ++ p.token kind c r n :: ts) =
      Except.ok ((p.token kind c r n :: s.tokens).reverse ++ ts)
    rw [List.reverse_cons, List.append_assoc, List.singleton_append]

theorem outcome_of_scan_error {e : Obstacle} (h : p.scan c r = .error e) :
    s.outcome p (c :: r) = .error (.error (e.located p.offset p.line)) := by
  unfold Reading.outcome
  rw [tokensFrom, h]
  rfl

/-! ### The tokens of a file -/

theorem code_of_reads (h : Reads bs p s (c :: r)) :
    s.code bs = match Token.scanCode p.member c r with
      | .error e => .error (.error (e.located p.offset p.line))
      | .ok (kind, n) => .ok (kind == .closeTag, s.next (p.token kind c r n)) := by
  unfold Reading.code
  rw [scanCode_of_stands h.stands, ← h.member]
  cases Token.scanCode p.member c r with
  | error e =>
    rw [h.offset, h.line]
    rfl
  | ok extent =>
    obtain ⟨kind, n⟩ := extent
    change (do
      let s ← s.emit bs kind (s.pos + width ((c :: r).take (n + 1)))
      return (kind == .closeTag, s) : Checked Fault (Bool × Reading)) = _
    rw [emit_of_reads h]
    rfl

/-- An open tag is some characters of ASCII, the third of which tells its kind. -/
private theorem openTag?_eq_some {s : List Char} (h : openTag? s = some (kind, n)) :
    3 ≤ n ∧ n ≤ s.length ∧ (∀ d ∈ s.take n, d.toNat < 0x80) ∧
      kind = if s[2]? == some '=' then .openTagWithEcho else .openTag := by
  unfold openTag? at h
  split at h
  · injection h with h
    injection h with hkind hn
    subst hkind hn
    simp
  · rename_i a b d r hne
    split at h
    · rename_i hword
      simp only [Bool.and_eq_true, beq_iff_eq] at hword
      obtain ⟨⟨ha, hb⟩, hd⟩ := hword
      have hascii {x y : Char} (hx : x.toLower = y) (hy : y.toNat < 0x80) : x.toNat < 0x80 :=
        ascii_of_toLower (hx ▸ hy)
      have ha' := hascii ha (by decide)
      have hb' := hascii hb (by decide)
      have hd' := hascii hd (by decide)
      have hkind : Kind.openTag =
          if some a == some '=' then Kind.openTagWithEcho else .openTag := by
        rw [if_neg]
        simpa using hne
      split at h
      · injection h with h
        injection h with hopen hn
        subst hopen hn
        exact ⟨by omega, by simp, by simp [ha', hb', hd'], hkind⟩
      · injection h with h
        injection h with hopen hn
        subst hopen hn
        exact ⟨by omega, by simp, by simp [ha', hb', hd'], hkind⟩
      · rename_i e t _
        split at h
        · rename_i hspace
          have he : e.toNat < 0x80 := by
            simp only [Bool.or_eq_true, beq_iff_eq] at hspace
            rcases hspace with (he | rfl) | rfl
            · exact ascii_of_isTabOrSpace he
            · decide
            · decide
          injection h with h
          injection h with hopen hn
          subst hopen hn
          exact ⟨by omega, by simp, by simp [ha', hb', hd', he], hkind⟩
        · cases h
    · contradiction
  · contradiction

private theorem tag_of_reads (h : Reads bs p s (c :: r))
    (htag : openTag? (c :: r) = some (kind, n + 1)) :
    (do
      let mark ← present bs[s.pos + 2]?
      s.emit bs (if mark == '=' then .openTagWithEcho else .openTag) (s.pos + (n + 1)) :
      Checked ε Reading) = .ok (s.next (p.token kind c r n)) := by
  obtain ⟨hthree, hle, hascii, hkind⟩ := openTag?_eq_some htag
  have htwo : width ((c :: r).take 2) = 2 := by
    rw [width_of_ascii, List.length_take]
    · omega
    · intro d hd
      exact hascii d (List.mem_of_mem_take (i := 2) (by rwa [List.take_take, Nat.min_eq_left (by omega)]))
  have hwidth : n + 1 = width ((c :: r).take (n + 1)) := by
    rw [width_of_ascii hascii, List.length_take]
    omega
  have hlt : 2 < (c :: r).length := by omega
  have hmark : bs[s.pos + 2]? = some (c :: r)[2] := by
    have hthird := h.stands.moveBy 2
    rw [htwo, List.drop_eq_getElem_cons hlt] at hthird
    apply hthird.getElem?_of_ascii
    apply hascii
    rw [List.mem_take_iff_getElem]
    exact ⟨2, by omega, rfl⟩
  have hsome : ((c :: r)[2]? == some '=') = ((c :: r)[2] == '=') := by
    rw [List.getElem?_eq_getElem hlt]
    rfl
  rw [hsome] at hkind
  rw [hmark, present_some, ok_bind, hwidth, ← hkind]
  exact emit_of_reads h kind n

private theorem inCode_after_tag {t : Token} {b : Bool}
    (h : t.kind = if b then .openTagWithEcho else .openTag) : (p.after t).inCode = true := by
  unfold Position.after
  dsimp only
  rw [h]
  cases b <;> rfl

/-- Outside code the text up to the next open tag and the tag are read at once. -/
theorem text_of_reads (h : Reads bs p s (c :: r)) (hcode : p.inCode = false) :
    ∃ s' p' cs', (s.text bs : Checked ε Reading) = .ok s' ∧ Reads bs p' s' cs' ∧
      s.outcome p (c :: r) = s'.outcome p' cs' ∧ s.pos < s'.pos ∧ cs'.length ≤ r.length ∧
      (cs' = [] ∨ p'.inCode = true) := by
  have hscan : p.scan c r = .ok (scanText c r) := by
    unfold Position.scan
    rw [hcode]
    rfl
  unfold Reading.text
  rw [findOpenTag_of_stands h.stands, ok_bind, find?_cons]
  unfold scanText at hscan
  cases htag : openTag? (c :: r) with
  | some tag =>
    obtain ⟨kind, length⟩ := tag
    obtain ⟨hthree, _, _, hkind⟩ := openTag?_eq_some htag
    obtain ⟨n, rfl⟩ : ∃ n, length = n + 1 := ⟨length - 1, by omega⟩
    rw [htag] at hscan
    refine ⟨_, _, _, ?_, h.next kind n, outcome_of_scan_ok hscan, Reading.lt_next, ?_, Or.inr ?_⟩
    · simp only [Option.isSome_some, if_true, Option.bind_some, List.drop_zero, htag,
        Option.map_some, List.take_zero, width_nil, Nat.add_zero, Nat.lt_irrefl, if_false,
        pure_eq_ok, ok_bind]
      exact tag_of_reads h htag
    · rw [List.length_drop]
      omega
    · exact inCode_after_tag hkind
  | none =>
    rw [htag] at hscan
    rw [if_neg (by decide)]
    cases hn : find? (fun s => (openTag? s).isSome) r with
    | none =>
      rw [hn] at hscan
      have hend : s.pos + width ((c :: r).take (r.length + 1)) = bs.length := by
        rw [← h.stands.length, List.take_succ_cons, List.take_length]
      refine ⟨_, _, _, ?_, h.next .inlineHtml r.length, outcome_of_scan_ok hscan, Reading.lt_next,
        ?_, Or.inl ?_⟩
      · have hemit := emit_of_reads (ε := ε) h .inlineHtml r.length
        rw [hend] at hemit
        exact hemit
      · rw [List.length_drop]
        omega
      · exact List.drop_length
    | some n =>
      rw [hn] at hscan
      have hfound := (of_find? hn).1
      obtain ⟨⟨kind, length⟩, htag⟩ := Option.isSome_iff_exists.mp hfound
      obtain ⟨hthree, hlength, _, hkind⟩ := openTag?_eq_some htag
      obtain ⟨m, rfl⟩ : ∃ m, length = m + 1 := ⟨length - 1, by omega⟩
      have hnext := h.next .inlineHtml n
      obtain ⟨d, t, hrest⟩ := List.exists_cons_of_ne_nil (l := r.drop n) (by
        rintro hnil
        rw [hnil] at hlength
        contradiction)
      have hstart : s.pos + width ((c :: r).take (n + 1)) =
          (s.next (p.token .inlineHtml c r n)).pos := by
        rw [← utf8ByteSize_token p .inlineHtml]
        rfl
      rw [hrest] at hnext htag
      refine ⟨_, _, _, ?_, hnext.next kind m, ?_, Nat.lt_trans Reading.lt_next Reading.lt_next, ?_,
        Or.inr (inCode_after_tag hkind)⟩
      · dsimp only [Option.map_some, Option.bind_some]
        rw [List.drop_succ_cons, hrest, htag]
        dsimp only [Option.map_some]
        have hlt : s.pos < s.pos + width ((c :: r).take (n + 1)) := by
          rw [hstart]
          exact Reading.lt_next
        rw [if_pos hlt, emit_of_reads h, ok_bind, hstart]
        exact tag_of_reads hnext htag
      · have htext : (p.after (p.token .inlineHtml c r n)).scan d t = .ok (kind, m) := by
          unfold Position.scan
          change (if p.inCode then _ else _) = _
          rw [hcode]
          change Except.ok (scanText d t) = _
          unfold scanText
          rw [htag]
          rfl
        rw [outcome_of_scan_ok hscan, Option.getD_some, hrest, outcome_of_scan_ok htext]
      · have hle := congrArg List.length hrest
        rw [List.length_drop, List.length_cons] at hle
        rw [List.length_drop]
        omega

theorem run_of_reads {p : Position} {s : Reading} {cs : List Char} (h : Reads bs p s cs)
    {inCode : Bool} (hcode : cs = [] ∨ p.inCode = inCode) :
    s.run bs inCode = s.outcome p cs := by
  rw [Reading.run]
  match cs, h, hcode with
  | [], h, _ =>
    have hend : s.pos = bs.length := h.stands.length
    rw [dif_neg (by omega)]
    unfold Reading.outcome
    rw [tokensFrom]
    exact congrArg Except.ok (List.append_nil _).symm
  | c :: r, h, hcode =>
    have hcode : p.inCode = inCode := hcode.resolve_left (List.cons_ne_nil c r)
    rw [dif_pos h.stands.lt]
    cases inCode with
    | false =>
      obtain ⟨s', p', cs', htext, hreads, houtcome, hlt, hlength, hcode'⟩ :=
        text_of_reads (ε := Fault) h hcode
      rw [if_neg Bool.false_ne_true, htext, ok_bind, advance_eq hlt, houtcome]
      exact run_of_reads hreads hcode'
    | true =>
      have hscan : p.scan c r = Token.scanCode p.member c r := by
        unfold Position.scan
        rw [hcode]
        rfl
      rw [if_pos rfl, code_of_reads h]
      cases hx : Token.scanCode p.member c r with
      | error e =>
        rw [outcome_of_scan_error (hscan.trans hx)]
        rfl
      | ok extent =>
        obtain ⟨kind, n⟩ := extent
        dsimp only [ok_bind]
        rw [advance_eq Reading.lt_next, outcome_of_scan_ok (hscan.trans hx)]
        apply run_of_reads (h.next kind n)
        right
        unfold Position.after
        rw [hcode]
        cases kind <;> rfl
termination_by cs.length
decreasing_by all_goals simp only [List.length_drop, List.length_cons]; omega

/-- In a file of fewer than `2 ^ 32` lines nothing goes wrong, and the tokens are the file's. -/
theorem tokenize_eq {content : ByteArray} (hlines : 1 + newlines content < 2 ^ 32) :
    tokenize content = ofExcept (ofContent content) := by
  unfold tokenize ofContent
  cases hdecode : decode content with
  | ok text =>
    have htext := decode_eq_ok_iff.mp hdecode
    have hbytes : bytesOf content = octets text.toList := by
      rw [← htext]
      exact map_toUTF8 text
    have hreads : Reads (octets text.toList) .start .start text.toList := by
      refine ⟨stands_zero _, rfl, rfl, rfl, rfl, ?_⟩
      rw [← htext, newlines_toByteArray] at hlines
      exact hlines
    have hrun : Reading.start.run (octets text.toList) false =
        Reading.start.outcome .start text.toList := run_of_reads hreads (Or.inr rfl)
    dsimp only
    rw [hbytes, hrun]
    unfold Reading.outcome
    cases tokensFrom .start text.toList <;> rfl
  | error offset =>
    have hsize : content.size = content.data.toList.length := Array.length_toList.symm
    have hbefore : ((content.data.toList.take (min offset content.size)).drop 0).count 10 =
        (content.extract 0 offset).data.count 10 := by
      rw [← Array.count_toList, ByteArray.data_extract, Array.toList_extract, List.extract_eq_take_drop,
        Nat.sub_zero, List.drop_zero, List.drop_zero, hsize, ← List.take_eq_take_min]
    have hle : (content.extract 0 offset).data.count 10 ≤ newlines content := by
      unfold newlines
      rw [← hbefore, List.drop_zero, ← Array.count_toList]
      exact (List.take_sublist _ _).count_le 10
    have hslice : min offset content.size ≤ content.data.toList.length :=
      hsize ▸ Nat.min_le_right _ _
    dsimp only
    rw [slice_eq_ok (Nat.zero_le _) hslice, ok_bind, hbefore, Nat.mod_eq_of_lt (by omega),
      add32_eq_ok (by omega), ok_bind]
    rfl

end PhpLint.Checked
