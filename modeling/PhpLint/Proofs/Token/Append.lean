import PhpLint.Proofs.Token.Extension

/-!
Files one behind the other. Behind a close tag reading starts anew: a file that ends with one can be
put in front of any other, whose tokens and faults only move to later places.
-/
namespace PhpLint.Token

variable {p : Position} {c : Char} {r s v : List Char} {kind : Kind} {n : Nat}
  {tokens : List Token} {last : Token}

theorem tokensFrom_cons_of_error {e : Obstacle} (h : p.scan c r = .error e) :
    tokensFrom p (c :: r) = .error (e.located p.offset p.line) := by
  rw [tokensFrom, h]

theorem tokensFrom_cons_of_ok (h : p.scan c r = .ok (kind, n)) :
    tokensFrom p (c :: r) =
      (tokensFrom (p.after (p.token kind c r n)) (r.drop n)).map (p.token kind c r n :: ·) := by
  rw [tokensFrom, h]
  rfl

/-! ### Moved readings -/

/-- A token that stands some tokens and lines later. -/
def shift (count lines : Nat) (t : Token) : Token :=
  { t with index := count + t.index, line := lines + t.line }

/-- A fault that stands some bytes and lines later. -/
def Fault.shift (bytes lines : Nat) : Fault → Fault
  | .invalidUtf8 offset line => .invalidUtf8 (bytes + offset) (lines + line)
  | .unterminated what offset line => .unterminated what (bytes + offset) (lines + line)
  | .unexpected char offset line => .unexpected char (bytes + offset) (lines + line)

/-- A position that has more tokens, lines and bytes in front of it. -/
def Position.shift (count lines bytes : Nat) (p : Position) : Position :=
  { p with index := count + p.index, line := lines + p.line, offset := bytes + p.offset }

theorem Position.after_shift (count lines bytes : Nat) (p : Position) (t : Token) :
    (p.shift count lines bytes).after (t.shift count lines) =
      (p.after t).shift count lines bytes := by
  unfold Position.after Position.shift
  congr 1 <;> exact Nat.add_assoc _ _ _

/-- Where a reading starts decides the places of its tokens and nothing else of them. -/
theorem tokensFrom_shift (count lines bytes : Nat) (p : Position) (s : List Char) :
    tokensFrom (p.shift count lines bytes) s =
      match tokensFrom p s with
      | .ok ts => .ok (ts.map (shift count lines))
      | .error e => .error (e.shift bytes lines) := by
  induction p, s using position_induction with
  | nil p =>
    rw [tokensFrom, tokensFrom]
    rfl
  | cons p c r ih =>
    cases hscan : p.scan c r with
    | error e =>
      have hscan' : (p.shift count lines bytes).scan c r = .error e := hscan
      rw [tokensFrom_cons_of_error hscan, tokensFrom_cons_of_error hscan']
      cases e <;> rfl
    | ok extent =>
      obtain ⟨kind, n⟩ := extent
      have hscan' : (p.shift count lines bytes).scan c r = .ok (kind, n) := hscan
      have htoken : (p.shift count lines bytes).token kind c r n =
          (p.token kind c r n).shift count lines :=
        rfl
      rw [tokensFrom_cons_of_ok hscan, tokensFrom_cons_of_ok hscan', htoken, Position.after_shift,
        ih kind n hscan]
      cases tokensFrom (p.after (p.token kind c r n)) (r.drop n) <;> rfl

/-! ### Extended texts -/

theorem scan_append (h : p.scan c r = .ok (kind, n)) (hclose : HasClose (r.drop n)) :
    p.scan c (r ++ v) = .ok (kind, n) := by
  unfold Position.scan at h ⊢
  split_ifs at h ⊢
  · exact scanCode_append h hclose
  · exact congrArg Except.ok (scanText_append (Except.ok.inj h) hclose)

theorem closeTag_of_scan (h : p.scan c r = .ok (.closeTag, n)) :
    p.inCode = true ∧ ∃ s, c = '?' ∧ r = '>' :: s ∧ n = 1 + lineBreak s := by
  unfold Position.scan at h
  split_ifs at h with hcode
  · refine ⟨hcode, ?_⟩
    generalize hkind : Kind.closeTag = kind at h
    have htoken := codeToken_of_scanCode h
    cases htoken with
    | closeTag hc hr => exact ⟨_, hc, hr, rfl⟩
    | blockComment hc hr h => obtain ⟨rfl | rfl, _⟩ := blockComment_eq_ok h <;> contradiction
    | heredoc hc hr h => obtain rfl | ⟨rfl, _⟩ := heredoc_eq_ok h <;> contradiction
    | word hc => split at hkind <;> contradiction
    | operator h => obtain ⟨_, _, _, rfl, _⟩ | ⟨_, rfl, _⟩ := scanOperator_eq_ok h <;> contradiction
    | _ => contradiction
  · exfalso
    unfold scanText at h
    split at h
    · rename_i htag
      cases h
      obtain hkind | hkind := kind_of_openTag? htag <;> contradiction
    · cases h

theorem hasClose_of_tokensFrom (h : tokensFrom p s = .ok tokens)
    (hlast : tokens.getLast? = some last) (hkind : last.kind = .closeTag) : HasClose s := by
  obtain ⟨before, rfl⟩ := List.getLast?_eq_some_iff.mp hlast
  obtain ⟨q, c, r, kind, n, rfl, hscan, rfl⟩ := exists_scan_of_tokensFrom h
  have hkind : kind = .closeTag := hkind
  subst hkind
  obtain ⟨_, s, rfl, rfl, _⟩ := closeTag_of_scan hscan
  exact ⟨(textOf before).toList, s, by rw [List.append_assoc]; rfl⟩

theorem lineBreak_le_length (s : List Char) : lineBreak s ≤ s.length := by
  unfold lineBreak
  split <;> simp

/-- The line break behind a close tag at the end of a file is complete. -/
theorem lineBreak_append_of_end (hend : s.drop (lineBreak s) = [])
    (hbreak : s.getLast? = some '\n' ∨ lineBreak v = 0) : lineBreak (s ++ v) = lineBreak s := by
  unfold lineBreak at hend
  split at hend
  · rfl
  · rfl
  · have hnil : s = [] := hend
    subst hnil
    exact hbreak.resolve_left nofun

theorem tokensFrom_append_of_scan (h : p.scan c (r ++ v) = .ok (kind, n)) (hn : n ≤ r.length) :
    tokensFrom p (c :: r ++ v) =
      (tokensFrom (p.after (p.token kind c r n)) (r.drop n ++ v)).map
        (p.token kind c r n :: ·) := by
  have htoken : p.token kind c (r ++ v) n = p.token kind c r n := by
    unfold Position.token
    rw [List.take_append_of_le_length hn]
  rw [List.cons_append, tokensFrom_cons_of_ok h, htoken, List.drop_append_of_le_length hn]

theorem nil_of_tokensFrom (h : tokensFrom p s = .ok []) : s = [] := by
  have htext := (tilesFrom_of_tokensFrom h).text
  simpa using htext.symm

/-- Behind a file that ends with a close tag, reading goes on at the position after its tokens. -/
theorem tokensFrom_append (h : tokensFrom p s = .ok tokens) (hlast : tokens.getLast? = some last)
    (hkind : last.kind = .closeTag)
    (hbreak : last.text.toList.getLast? = some '\n' ∨ lineBreak v = 0) :
    tokensFrom p (s ++ v) = (tokensFrom (tokens.foldl .after p) v).map (tokens ++ ·) := by
  induction p, s using position_induction generalizing tokens with
  | nil p =>
    rw [tokensFrom] at h
    cases h
    contradiction
  | cons p c r ih =>
    obtain ⟨kind, n, ts, hscan, hts, rfl⟩ := tokensFrom_cons_eq_ok.mp h
    cases ts with
    | nil =>
      cases hlast
      have hkind : kind = .closeTag := hkind
      subst hkind
      have hrest := nil_of_tokensFrom hts
      obtain ⟨hcode, s, rfl, rfl, rfl⟩ := closeTag_of_scan hscan
      have hlength : 1 + lineBreak s = ('>' :: s).length := by
        have hle := lineBreak_le_length s
        have hge := List.drop_eq_nil_iff.mp hrest
        rw [List.length_cons] at hge ⊢
        omega
      have htake : ('>' :: s).take (1 + lineBreak s) = '>' :: s := by
        rw [hlength, List.take_length]
      have hbreak : lineBreak (s ++ v) = lineBreak s := by
        rw [Nat.add_comm, List.drop_succ_cons] at hrest
        refine lineBreak_append_of_end hrest (hbreak.imp_left fun hfeed => ?_)
        change (String.ofList ('?' :: ('>' :: s).take (1 + lineBreak s))).toList.getLast? = _
          at hfeed
        rw [htake, String.toList_ofList, List.getLast?_cons_cons] at hfeed
        cases s with
        | nil => contradiction
        | cons d s => rwa [List.getLast?_cons_cons] at hfeed
      have hscan' : p.scan '?' ('>' :: s ++ v) = .ok (.closeTag, 1 + lineBreak s) := by
        unfold Position.scan
        rw [if_pos hcode, ← hbreak]
        rfl
      rw [tokensFrom_append_of_scan hscan' hlength.le, hrest]
      rfl
    | cons t ts =>
      have hlast : (t :: ts).getLast? = some last := hlast
      have hclose := hasClose_of_tokensFrom hts hlast hkind
      have hn : n ≤ r.length := by
        by_contra hlt
        exact hclose.ne_nil (List.drop_eq_nil_of_le (by omega))
      rw [tokensFrom_append_of_scan (scan_append hscan hclose) hn, ih kind n hscan hts hlast]
      simp only [List.foldl_cons]
      generalize tokensFrom (ts.foldl .after _) v = reading
      cases reading <;> rfl

theorem foldl_after (p : Position) (tokens : List Token) :
    (tokens.foldl .after p).index = p.index + tokens.length ∧
    (tokens.foldl .after p).line = p.line + Text.lineFeeds (textOf tokens) ∧
    (tokens.foldl .after p).offset = p.offset + (textOf tokens).utf8ByteSize := by
  induction tokens generalizing p with
  | nil => exact ⟨rfl, rfl, rfl⟩
  | cons t ts ih =>
    obtain ⟨hindex, hline, hoffset⟩ := ih (p.after t)
    rw [List.foldl_cons, hindex, hline, hoffset, textOf_cons, Text.lineFeeds_append,
      String.utf8ByteSize_append, ← Nat.add_assoc, ← Nat.add_assoc, List.length_cons,
      Nat.add_comm ts.length, ← Nat.add_assoc]
    exact ⟨rfl, rfl, rfl⟩

theorem after_closeTag {t : Token} (h : t.kind = .closeTag) (p : Position) :
    (p.after t).inCode = false ∧ (p.after t).member = false := by
  unfold Position.after takesMemberName isSpace is isKeyword
  rw [h]
  exact ⟨rfl, rfl⟩

/-- After a close tag reading is where it is at the start of a file, but for the place. -/
theorem foldl_after_start (hlast : tokens.getLast? = some last) (hkind : last.kind = .closeTag) :
    tokens.foldl .after .start = Position.start.shift tokens.length
      (Text.lineFeeds (textOf tokens)) (textOf tokens).utf8ByteSize := by
  obtain ⟨hindex, hline, hoffset⟩ := foldl_after .start tokens
  obtain ⟨before, rfl⟩ := List.getLast?_eq_some_iff.mp hlast
  obtain ⟨hcode, hmember⟩ := after_closeTag hkind (before.foldl .after .start)
  rw [List.foldl_append, List.foldl_cons, List.foldl_nil] at hindex hline hoffset ⊢
  generalize (before.foldl Position.after .start).after last = q at *
  obtain ⟨index, line, offset, inCode, member⟩ := q
  subst hindex hline hoffset hcode hmember
  unfold Position.shift Position.start
  congr 1
  · exact Nat.add_comm _ _
  · exact Nat.add_comm _ _
  · exact Nat.add_comm _ _

/-! ### Files -/

theorem ofContent_toByteArray (s : String) :
    ofContent s.toByteArray = tokensFrom .start s.toList := by
  unfold ofContent
  rw [Text.decode_eq_ok_iff.mpr rfl]

theorem newlines_append (a b : ByteArray) : newlines (a ++ b) = newlines a + newlines b := by
  unfold newlines
  rw [ByteArray.data_append, Array.count_append]

/-- Whether bytes begin with a line break that a close tag in front of them would take along. -/
def BreaksLine (bytes : ByteArray) : Prop :=
  [10] <+: bytes.toList ∨ [13, 10] <+: bytes.toList

theorem lineBreak_of_not_breaksLine {s : String} (h : ¬ BreaksLine s.toByteArray) :
    lineBreak s.toList = 0 := by
  have hbytes : s.toByteArray.toList = s.toList.flatMap String.utf8EncodeChar :=
    Text.toList_toUTF8 s
  unfold BreaksLine at h
  rw [hbytes] at h
  unfold lineBreak
  split
  · rename_i heq
    rw [heq] at h
    exact absurd (Or.inr ⟨_, rfl⟩) h
  · rename_i heq
    rw [heq] at h
    exact absurd (Or.inl ⟨_, rfl⟩) h
  · rfl

end PhpLint.Token
