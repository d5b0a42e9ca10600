import PhpLint.Model.SourceFile
import PhpLint.Proofs.Except
import PhpLint.Proofs.Text.Utf8

/-!
Tokens cut up the file: their texts, put together, are its content, and positions, lines and the
places of faults count what stands before them.
-/
namespace PhpLint.Token

/-- The text that tokens stand for. -/
def textOf (tokens : List Token) : String :=
  String.join (tokens.map (·.text))

/-- Line feeds among bytes. -/
def newlines (bytes : ByteArray) : Nat :=
  bytes.data.count 10

/-- Tokens that cut up the bytes of a file without a gap. -/
structure Tiles (tokens : List Token) (content : ByteArray) : Prop where
  text : (textOf tokens).toByteArray = content
  nonempty : ∀ t ∈ tokens, t.text ≠ ""
  index : ∀ i, (h : i < tokens.length) → tokens[i].index = i
  line : ∀ i, (h : i < tokens.length) →
    tokens[i].line = 1 + Text.lineFeeds (textOf (tokens.take i))

/-- A fault that stands at a byte of a file and knows its line. -/
structure Fault.IsLocated (fault : Fault) (content : ByteArray) : Prop where
  offset_le : fault.offset ≤ content.size
  line : fault.line = 1 + newlines (content.extract 0 fault.offset)

@[simp] theorem textOf_nil : textOf [] = "" := rfl

@[simp] theorem textOf_cons (t : Token) (ts : List Token) :
    textOf (t :: ts) = t.text ++ textOf ts := by
  simp [textOf, String.join_cons]

theorem textOf_append (ts us : List Token) : textOf (ts ++ us) = textOf ts ++ textOf us := by
  simp [textOf, String.join_append]

theorem textOf_singleton (t : Token) : textOf [t] = t.text := by
  rw [textOf_cons, textOf_nil, String.append_empty]

theorem newlines_toByteArray (s : String) : newlines s.toByteArray = Text.lineFeeds s := by
  unfold newlines Text.lineFeeds
  rw [← Text.count_utf8Encode, String.utf8Encode_toList, Array.count_toList]

/-! ### The tokens from a position on -/

/-- The token at a position, whose first character `c` is followed by `n` characters of `r`. -/
def Position.token (p : Position) (kind : Kind) (c : Char) (r : List Char) (n : Nat) : Token :=
  ⟨kind, String.ofList (c :: r.take n), p.line, p.index⟩

theorem Position.token_text_append (p : Position) (kind : Kind) (c : Char) (r : List Char)
    (n : Nat) : (p.token kind c r n).text ++ String.ofList (r.drop n) = String.ofList (c :: r) := by
  change String.ofList (c :: r.take n) ++ _ = _
  rw [← String.ofList_append, List.cons_append, List.take_append_drop]

/-- Tokens come one at a time: each is scanned at the position after the one before. -/
theorem tokensFrom_cons_eq_ok {p : Position} {c : Char} {r : List Char} {tokens : List Token} :
    tokensFrom p (c :: r) = .ok tokens ↔
      ∃ kind n ts, p.scan c r = .ok (kind, n) ∧
        tokensFrom (p.after (p.token kind c r n)) (r.drop n) = .ok ts ∧
        p.token kind c r n :: ts = tokens := by
  rw [tokensFrom]
  cases hscan : p.scan c r with
  | error e => simp
  | ok extent =>
    obtain ⟨kind, n⟩ := extent
    change tokensFrom (p.after (p.token kind c r n)) (r.drop n) >>= (fun ts =>
      pure (p.token kind c r n :: ts)) = .ok tokens ↔ _
    simp only [except_bind_eq_ok, except_pure_eq_ok]
    simp

/-- The first obstacle ends the reading, at the position where its token would start. -/
theorem tokensFrom_cons_eq_error {p : Position} {c : Char} {r : List Char} {fault : Fault} :
    tokensFrom p (c :: r) = .error fault ↔
      (∃ e, p.scan c r = .error e ∧ e.located p.offset p.line = fault) ∨
      ∃ kind n, p.scan c r = .ok (kind, n) ∧
        tokensFrom (p.after (p.token kind c r n)) (r.drop n) = .error fault := by
  rw [tokensFrom]
  cases hscan : p.scan c r with
  | error e => simp
  | ok extent =>
    obtain ⟨kind, n⟩ := extent
    change tokensFrom (p.after (p.token kind c r n)) (r.drop n) >>= (fun ts =>
      pure (p.token kind c r n :: ts)) = .error fault ↔ _
    simp only [except_bind_eq_error, except_pure_ne_error]
    simp

/--
A statement about positions and the text after them holds of a text if it holds of the empty one,
and of every token if it holds of what follows the token.
-/
theorem position_induction {motive : Position → List Char → Prop}
    (nil : ∀ p, motive p [])
    (cons : ∀ p c r, (∀ kind n, p.scan c r = .ok (kind, n) →
      motive (p.after (p.token kind c r n)) (r.drop n)) → motive p (c :: r))
    (p : Position) (s : List Char) : motive p s := by
  match s with
  | [] => exact nil p
  | c :: r =>
    apply cons
    intro kind n _
    exact position_induction nil cons (p.after (p.token kind c r n)) (r.drop n)
termination_by s.length
decreasing_by simp only [List.length_drop, List.length_cons]; omega

/-- What a reading from a position on guarantees of its tokens. -/
structure TilesFrom (p : Position) (tokens : List Token) (s : List Char) : Prop where
  text : textOf tokens = String.ofList s
  nonempty : ∀ t ∈ tokens, t.text ≠ ""
  index : ∀ i, (h : i < tokens.length) → tokens[i].index = p.index + i
  line : ∀ i, (h : i < tokens.length) →
    tokens[i].line = p.line + Text.lineFeeds (textOf (tokens.take i))

theorem TilesFrom.cons {p : Position} {kind : Kind} {c : Char} {r : List Char} {n : Nat}
    {ts : List Token} (h : TilesFrom (p.after (p.token kind c r n)) ts (r.drop n)) :
    TilesFrom p (p.token kind c r n :: ts) (c :: r) where
  text := by rw [textOf_cons, h.text, p.token_text_append]
  nonempty := by
    intro t ht
    rcases List.mem_cons.mp ht with rfl | ht
    · change String.ofList (c :: r.take n) ≠ ""
      simp
    · exact h.nonempty t ht
  index := by
    intro i hi
    cases i with
    | zero => rfl
    | succ i =>
      have := h.index i (by simpa using hi)
      rw [List.getElem_cons_succ, this]
      change p.index + 1 + i = p.index + (i + 1)
      omega
  line := by
    intro i hi
    cases i with
    | zero => rfl
    | succ i =>
      have := h.line i (by simpa using hi)
      rw [List.getElem_cons_succ, this, List.take_succ_cons, textOf_cons, Text.lineFeeds_append]
      exact Nat.add_assoc _ _ _

theorem tilesFrom_of_tokensFrom {p : Position} {s : List Char} {tokens : List Token}
    (h : tokensFrom p s = .ok tokens) : TilesFrom p tokens s := by
  induction p, s using position_induction generalizing tokens with
  | nil p =>
    rw [tokensFrom] at h
    cases h
    exact ⟨rfl, by simp, by simp, by simp⟩
  | cons p c r ih =>
    obtain ⟨kind, n, ts, hscan, hts, rfl⟩ := tokensFrom_cons_eq_ok.mp h
    exact (ih kind n hscan hts).cons

/-- A fault lies at the end of some beginning of the text, and its line counts that beginning. -/
theorem located_of_tokensFrom {p : Position} {s : List Char} {fault : Fault}
    (h : tokensFrom p s = .error fault) :
    ∃ before after : List Char, s = before ++ after ∧
      fault.offset = p.offset + (String.ofList before).utf8ByteSize ∧
      fault.line = p.line + before.count '\n' ∧
      ∀ offset line, fault ≠ .invalidUtf8 offset line := by
  induction p, s using position_induction with
  | nil p =>
    rw [tokensFrom] at h
    contradiction
  | cons p c r ih =>
    rcases tokensFrom_cons_eq_error.mp h with ⟨e, _, rfl⟩ | ⟨kind, n, hscan, hrest⟩
    · exact ⟨[], c :: r, rfl, by cases e <;> rfl, by cases e <;> rfl,
        by cases e <;> simp [Obstacle.located]⟩
    · obtain ⟨before, after, hs, hoffset, hline, hne⟩ := ih kind n hscan hrest
      refine ⟨c :: r.take n ++ before, after, ?_, ?_, ?_, hne⟩
      · rw [List.append_assoc, ← hs, List.cons_append, List.take_append_drop]
      · rw [hoffset, String.ofList_append, String.utf8ByteSize_append, ← Nat.add_assoc]
        rfl
      · rw [hline, List.count_append, ← Nat.add_assoc]
        simp [Position.after, Position.token, Text.lineFeeds]

/-! ### The tokens of a file -/

/-- A place after some of a valid file's characters is a located place of the file. -/
private theorem isLocated_of_split {content : ByteArray} {before after : List Char}
    {fault : Fault} (hcontent : (before ++ after).utf8Encode = content)
    (hoffset : fault.offset = (String.ofList before).utf8ByteSize)
    (hline : fault.line = 1 + before.count '\n') : fault.IsLocated content := by
  have hsize : before.utf8Encode.size = fault.offset := by
    rw [hoffset, ← String.size_toByteArray, String.toByteArray_ofList]
  rw [List.utf8Encode_append] at hcontent
  refine ⟨?_, ?_⟩
  · rw [← hcontent, ByteArray.size_append]
    omega
  · rw [hline, ← hcontent, ← hsize, ByteArray.extract_append_eq_left rfl, newlines,
      ← Array.count_toList, Text.count_utf8Encode]

theorem ofContent_eq_ok_iff {content : ByteArray} {tokens : List Token} :
    ofContent content = .ok tokens ↔
      ∃ s : String, s.toByteArray = content ∧ tokensFrom .start s.toList = .ok tokens := by
  unfold ofContent
  cases hdecode : Text.decode content with
  | ok s =>
    have hs := Text.decode_eq_ok_iff.mp hdecode
    constructor
    · intro h
      exact ⟨s, hs, h⟩
    · rintro ⟨s', hs', h⟩
      rw [String.toByteArray_inj.mp (hs.trans hs'.symm)]
      exact h
  | error n =>
    constructor
    · intro h
      contradiction
    · rintro ⟨s, rfl, _⟩
      exact absurd s.isValidUTF8 (Text.decode_eq_error_iff.mp hdecode).1

theorem ofContent_eq_error_iff {content : ByteArray} {fault : Fault} :
    ofContent content = .error fault ↔
      (∃ s : String, s.toByteArray = content ∧ tokensFrom .start s.toList = .error fault) ∨
      ¬ content.IsValidUTF8 ∧ fault = .invalidUtf8 (Text.validLength content 0)
        (1 + newlines (content.extract 0 (Text.validLength content 0))) := by
  unfold ofContent
  cases hdecode : Text.decode content with
  | ok s =>
    have hs := Text.decode_eq_ok_iff.mp hdecode
    constructor
    · intro h
      exact Or.inl ⟨s, hs, h⟩
    · rintro (⟨s', hs', h⟩ | ⟨hinvalid, _⟩)
      · rw [String.toByteArray_inj.mp (hs.trans hs'.symm)]
        exact h
      · exact absurd (hs ▸ s.isValidUTF8) hinvalid
  | error n =>
    obtain ⟨hinvalid, rfl⟩ := Text.decode_eq_error_iff.mp hdecode
    constructor
    · intro h
      cases h
      exact Or.inr ⟨hinvalid, rfl⟩
    · rintro (⟨s, rfl, _⟩ | ⟨_, rfl⟩)
      · exact absurd s.isValidUTF8 hinvalid
      · rfl

theorem tiles_of_ofContent {content : ByteArray} {tokens : List Token}
    (h : ofContent content = .ok tokens) : Tiles tokens content := by
  obtain ⟨s, rfl, hs⟩ := ofContent_eq_ok_iff.mp h
  have ht := tilesFrom_of_tokensFrom hs
  refine ⟨?_, ht.nonempty, ?_, ht.line⟩
  · rw [ht.text, String.ofList_toList]
  · intro i hi
    rw [ht.index i hi]
    exact Nat.zero_add i

theorem isLocated_of_ofContent {content : ByteArray} {fault : Fault}
    (h : ofContent content = .error fault) : fault.IsLocated content := by
  rcases ofContent_eq_error_iff.mp h with ⟨s, rfl, hs⟩ | ⟨_, rfl⟩
  · obtain ⟨before, after, hsplit, hoffset, hline, _⟩ := located_of_tokensFrom hs
    refine @isLocated_of_split _ before after _ ?_ ?_ ?_
    · rw [← hsplit, String.utf8Encode_toList]
    · rw [hoffset]
      exact Nat.zero_add _
    · exact hline
  · exact ⟨(Text.isGreatest_validLength content).1.1, rfl⟩

/-- Reading says that a file is no text exactly if it is none. -/
theorem ofContent_invalidUtf8_iff {content : ByteArray} {offset line : Nat} :
    ofContent content = .error (.invalidUtf8 offset line) ↔
      ¬ content.IsValidUTF8 ∧ offset = Text.validLength content 0 ∧
        line = 1 + newlines (content.extract 0 offset) := by
  rw [ofContent_eq_error_iff]
  constructor
  · rintro (⟨s, _, hs⟩ | ⟨hinvalid, heq⟩)
    · obtain ⟨_, _, _, _, _, hne⟩ := located_of_tokensFrom hs
      exact absurd rfl (hne offset line)
    · cases heq
      exact ⟨hinvalid, rfl, rfl⟩
  · rintro ⟨hinvalid, rfl, rfl⟩
    exact Or.inr ⟨hinvalid, rfl⟩

/-- The last line of a file is that of its last token, plus the line feeds in that token. -/
theorem lineCount_of_tiles {content : ByteArray} {tokens : List Token}
    (h : Tiles tokens content) (name : String) (outline : Outline) :
    (SourceFile.ofOutline name tokens outline).lineCount =
      if content.size = 0 then 0 else 1 + newlines content := by
  unfold SourceFile.lineCount SourceFile.ofOutline
  rw [List.back?_toArray]
  rcases List.eq_nil_or_concat tokens with rfl | ⟨before, last, rfl⟩
  · rw [← h.text]
    rfl
  · rw [List.concat_eq_append] at h ⊢
    have hsize : content.size ≠ 0 := by
      have hne : last.text.utf8ByteSize ≠ 0 := by
        simpa using h.nonempty last (by simp)
      rw [← h.text, textOf_append, String.size_toByteArray, String.utf8ByteSize_append,
        textOf_singleton]
      omega
    have hline := h.line before.length (by simp)
    rw [List.getElem_concat_length rfl, List.take_left] at hline
    rw [if_neg hsize, List.getLast?_concat, ← h.text, newlines_toByteArray, textOf_append,
      Text.lineFeeds_append, textOf_singleton]
    simp only [hline, Nat.add_assoc]

end PhpLint.Token
