import PhpLint.Proofs.Text.Octets
import PhpLint.Proofs.Token.Code
import PhpLint.Proofs.Token.Stream

/-!
Text and code take turns. Code begins at the first open tag and nowhere else, and it ends at the
first close tag that is not inside a quoted text, a heredoc or a block comment.
-/
namespace PhpLint.Token

open Text (isBlank isTabOrSpace isHexDigit)
open scoped Computability

/-- Kinds that occur only behind an open tag and in front of the close tag. -/
def Kind.isCode : Kind → Bool
  | .inlineHtml | .openTag | .openTagWithEcho | .closeTag => false
  | _ => true

/-- A comment that ends with its own mark and not with the line. -/
def IsBlockComment (t : Token) : Prop :=
  (t.kind = .comment ∨ t.kind = .docComment) ∧ ['/', '*'] <+: t.text.toList

/-- An open tag stands at the front of a text. -/
def OpensCode (s : List Char) : Prop :=
  ['<', '?', '='] <+: s ∨
    ∃ word rest, s = '<' :: '?' :: (word ++ rest) ∧ word.map Char.toLower = ['p', 'h', 'p'] ∧
      ∀ c, rest.head? = some c → c ∈ [' ', '\t', '\n', '\r']

/-! ### The order of kinds -/

namespace Alternation

def text : Language Kind :=
  {[.inlineHtml]}

def opening : Language Kind :=
  {[.openTag], [.openTagWithEcho]}

def code : Language Kind :=
  {kinds | ∀ kind ∈ kinds, kind.isCode}

def closing : Language Kind :=
  {[.closeTag]}

/-- Code behind its open tag, with the text in front of the tag. -/
def block : Language Kind :=
  (1 + text) * opening * code

/-- Blocks with their close tags; after them nothing, a text, or a block that the file ends. -/
def file : Language Kind :=
  (block * closing)∗ * (1 + text + block)

/-- What can follow the code of a block. -/
def afterCode : Language Kind :=
  1 + closing * file

theorem one_le_code : 1 ≤ code := by
  intro kinds hkinds
  rw [(Language.mem_one kinds).mp hkinds]
  exact nofun

theorem code_mul_code_le : code * code ≤ code := by
  intro kinds hkinds
  obtain ⟨first, hfirst, second, hsecond, rfl⟩ := Language.mem_mul.mp hkinds
  intro kind hkind
  exact (List.mem_append.mp hkind).elim (hfirst kind) (hsecond kind)

/-- A file without close tags. -/
theorem unclosed_le_file : 1 + text + block ≤ file := by
  unfold file
  exact le_mul_of_one_le_left' one_le_kstar

theorem block_mul_afterCode_le : block * afterCode ≤ file := by
  unfold afterCode
  rw [mul_add, mul_one, ← mul_assoc]
  refine add_le (le_trans le_add_self unclosed_le_file) ?_
  unfold file
  rw [← mul_assoc]
  exact mul_le_mul_left mul_kstar_le_kstar _

theorem text_le_file : text ≤ file :=
  le_trans (le_trans le_add_self le_self_add) unclosed_le_file

/-- A block that begins with its open tag, and what follows it. -/
def fromTag : Language Kind :=
  opening * (code * afterCode)

theorem fromTag_le_file : fromTag ≤ file := by
  refine le_trans ?_ block_mul_afterCode_le
  unfold fromTag block
  rw [← mul_assoc]
  exact mul_le_mul_left (mul_le_mul_left (le_mul_of_one_le_left' le_self_add) _) _

theorem text_mul_fromTag_le : text * fromTag ≤ file := by
  refine le_trans ?_ block_mul_afterCode_le
  unfold fromTag block
  rw [← mul_assoc, ← mul_assoc]
  exact mul_le_mul_left (mul_le_mul_left (mul_le_mul_left le_add_self _) _) _

variable {kind : Kind} {kinds : List Kind}

theorem cons_mem_code (hkind : kind.isCode) (h : kinds ∈ code * afterCode) :
    kind :: kinds ∈ code * afterCode := by
  have hmem : [kind] ++ kinds ∈ code * (code * afterCode) :=
    Language.append_mem_mul (fun k hk => List.mem_singleton.mp hk ▸ hkind) h
  rw [← mul_assoc] at hmem
  exact mul_le_mul_left code_mul_code_le _ hmem

theorem cons_mem_closing (h : kinds ∈ file) : .closeTag :: kinds ∈ code * afterCode := by
  have hmem : [.closeTag] ++ kinds ∈ closing * file := Language.append_mem_mul rfl h
  have hafter : .closeTag :: kinds ∈ afterCode := Or.inr hmem
  exact le_mul_of_one_le_left' one_le_code hafter

theorem nil_mem_code : [] ∈ code * afterCode :=
  Language.append_mem_mul (a := []) (b := []) nofun (Or.inl Language.nil_mem_one)

theorem cons_mem_fromTag (hkind : kind = .openTag ∨ kind = .openTagWithEcho)
    (h : kinds ∈ code * afterCode) : kind :: kinds ∈ fromTag := by
  have htag : [kind] ∈ opening := by
    rcases hkind with rfl | rfl
    · exact Or.inl rfl
    · exact Or.inr rfl
  exact Language.append_mem_mul htag h

end Alternation

/-! ### Single tokens -/

variable {member : Bool} {c : Char} {r : List Char} {kind : Kind} {n : Nat}

theorem kind_of_openTag? {s : List Char} (h : openTag? s = some (kind, n)) :
    kind = .openTag ∨ kind = .openTagWithEcho := by
  unfold openTag? at h
  split at h
  · cases h
    exact Or.inr rfl
  · split at h
    · split at h
      · cases h
        exact Or.inl rfl
      · cases h
        exact Or.inl rfl
      · split at h
        · cases h
          exact Or.inl rfl
        · contradiction
    · contradiction
  · contradiction

/-- In code only a close tag is no code. -/
theorem CodeToken.isCode (h : CodeToken member c r kind n) (hkind : kind ≠ .closeTag) :
    kind.isCode := by
  cases h with
  | closeTag => contradiction
  | blockComment hc hr h => obtain ⟨rfl | rfl, _⟩ := blockComment_eq_ok h <;> rfl
  | heredoc hc hr h => obtain rfl | ⟨rfl, _⟩ := heredoc_eq_ok h <;> rfl
  | word hc => split <;> rfl
  | operator h => obtain ⟨_, _, _, rfl, _⟩ | ⟨_, rfl, _⟩ := scanOperator_eq_ok h <;> rfl
  | _ => rfl

/-- A token changes between text and code only if it is a tag. -/
theorem inCode_after {p : Position} {t : Token} (h : t.kind.isCode ∨ t.kind = .inlineHtml) :
    (p.after t).inCode = p.inCode := by
  unfold Position.after
  cases hkind : t.kind <;> rw [hkind] at h <;> first | rfl | simp [Kind.isCode] at h

theorem inCode_after_openTag {p : Position} {t : Token}
    (h : t.kind = .openTag ∨ t.kind = .openTagWithEcho) : (p.after t).inCode = true := by
  unfold Position.after
  rcases h with h | h <;> rw [h]

/-- No open tag begins in a text, and what follows the text begins with one. -/
theorem openTag?_of_text (h : openTag? (c :: r) = none) :
    ∃ n, scanText c r = (.inlineHtml, n) ∧
      (∀ i ≤ n, i ≤ r.length → openTag? ((c :: r).drop i) = none) ∧
      (r.drop n = [] ∨ (openTag? (r.drop n)).isSome) := by
  have hcut (n : Nat) (hbefore : ∀ i < n, i < r.length → ¬ (openTag? (r.drop i)).isSome) :
      ∀ i ≤ n, i ≤ r.length → openTag? ((c :: r).drop i) = none := by
    intro i hi hr
    cases i with
    | zero => exact h
    | succ i => exact Option.not_isSome_iff_eq_none.mp (hbefore i hi hr)
  unfold scanText
  rw [h]
  cases hfind : find? (fun s => (openTag? s).isSome) r with
  | none =>
    exact ⟨r.length, rfl, hcut _ fun i _ _ => Text.not_of_find?_eq_none hfind i,
      Or.inl List.drop_length⟩
  | some n =>
    obtain ⟨hfound, hbefore⟩ := Text.of_find? hfind
    exact ⟨n, rfl, hcut _ fun i hi _ => hbefore i hi, Or.inr hfound⟩

theorem kinds_of_tokensFrom {p : Position} {s : List Char} {tokens : List Token}
    (h : tokensFrom p s = .ok tokens) :
    (p.inCode = true → tokens.map (·.kind) ∈ Alternation.code * Alternation.afterCode) ∧
    (p.inCode = false → tokens.map (·.kind) ∈ Alternation.file ∧
      ((openTag? s).isSome → tokens.map (·.kind) ∈ Alternation.fromTag)) := by
  induction p, s using position_induction generalizing tokens with
  | nil p =>
    rw [tokensFrom] at h
    cases h
    refine ⟨fun _ => Alternation.nil_mem_code, fun _ => ⟨?_, fun htag => Bool.noConfusion htag⟩⟩
    exact Alternation.unclosed_le_file (Or.inl (Or.inl Language.nil_mem_one))
  | cons p c r ih =>
    obtain ⟨kind, n, ts, hscan, hts, rfl⟩ := tokensFrom_cons_eq_ok.mp h
    obtain ⟨hcode, htext⟩ := ih kind n hscan hts
    change (_ → kind :: ts.map (·.kind) ∈ _) ∧ (_ → kind :: ts.map (·.kind) ∈ _ ∧ _)
    unfold Position.scan at hscan
    constructor
    · intro hp
      rw [if_pos hp] at hscan
      by_cases hkind : kind = .closeTag
      · subst hkind
        exact Alternation.cons_mem_closing (htext rfl).1
      · have hiscode := (codeToken_of_scanCode hscan).isCode hkind
        exact Alternation.cons_mem_code hiscode (hcode ((inCode_after (Or.inl hiscode)).trans hp))
    · intro hp
      rw [hp, if_neg Bool.false_ne_true] at hscan
      cases htag : openTag? (c :: r) with
      | some tag =>
        unfold scanText at hscan
        rw [htag] at hscan
        cases hscan
        have hkind := kind_of_openTag? htag
        have hmem := Alternation.cons_mem_fromTag hkind (hcode (inCode_after_openTag hkind))
        exact ⟨Alternation.fromTag_le_file hmem, fun _ => hmem⟩
      | none =>
        obtain ⟨m, hm, _, hbehind⟩ := openTag?_of_text htag
        rw [hm] at hscan
        cases hscan
        refine ⟨?_, fun htag => Bool.noConfusion htag⟩
        rcases hbehind with hnil | hnext
        · rw [hnil, tokensFrom] at hts
          cases hts
          exact Alternation.text_le_file rfl
        · have hrest := (htext ((inCode_after (Or.inr rfl)).trans hp)).2 hnext
          have hmem : [.inlineHtml] ++ ts.map (·.kind) ∈ Alternation.text * Alternation.fromTag :=
            Language.append_mem_mul rfl hrest
          exact Alternation.text_mul_fromTag_le hmem

/-! ### Where code begins and ends -/

theorem isSome_openTag?_iff {s : List Char} : (openTag? s).isSome ↔ OpensCode s := by
  constructor
  · intro h
    unfold openTag? at h
    split at h
    · exact Or.inl ⟨_, rfl⟩
    · rename_i a b c rest _
      split at h
      · rename_i hword
        have hfold : [a, b, c].map Char.toLower = ['p', 'h', 'p'] := by
          simpa [and_assoc] using hword
        refine Or.inr ⟨[a, b, c], rest, rfl, hfold, ?_⟩
        intro d hd
        obtain ⟨tail, rfl⟩ := List.head?_eq_some_iff.mp hd
        split at h
        · contradiction
        · rename_i heq
          cases heq
          simp
        · rename_i e tail' _ heq
          cases heq
          split at h
          · rename_i hblank
            simpa [isTabOrSpace, or_assoc] using hblank
          · contradiction
      · contradiction
    · contradiction
  · rintro (⟨rest, rfl⟩ | ⟨word, rest, rfl, hword, hrest⟩)
    · rfl
    · obtain ⟨a, b, c, rfl⟩ := List.length_eq_three.mp (by
        rw [← List.length_map (f := Char.toLower), hword]
        rfl)
      rw [List.cons_append, List.cons_append, List.cons_append, List.nil_append, openTag?_php hword]
      cases rest with
      | nil => rfl
      | cons d tail =>
        have hd := hrest d rfl
        have hblank : isTabOrSpace d || d == '\n' || d == '\r' := by
          simpa [isTabOrSpace, or_assoc] using hd
        rw [afterWord, hblank, if_pos rfl]
        split <;> rfl

/-- A token of a file is read from the text that the tokens in front of it leave. -/
theorem exists_scan_of_tokensFrom {p : Position} {s : List Char} {before after : List Token}
    {t : Token} (h : tokensFrom p s = .ok (before ++ t :: after)) :
    ∃ (q : Position) (c : Char) (r : List Char) (kind : Kind) (n : Nat),
      s = (textOf before).toList ++ c :: r ∧ q.scan c r = .ok (kind, n) ∧
        t = q.token kind c r n := by
  induction p, s using position_induction generalizing before with
  | nil p =>
    rw [tokensFrom] at h
    cases before <;> cases h
  | cons p c r ih =>
    obtain ⟨kind, n, ts, hscan, hts, hcut⟩ := tokensFrom_cons_eq_ok.mp h
    cases before with
    | nil =>
      cases hcut
      exact ⟨p, c, r, kind, n, rfl, hscan, rfl⟩
    | cons first before =>
      cases hcut
      obtain ⟨q, c', r', kind', n', hrest, hscan', rfl⟩ := ih kind n hscan hts
      refine ⟨q, c', r', kind', n', ?_, hscan', rfl⟩
      have htext := congrArg String.toList (p.token_text_append kind c r n)
      rw [String.toList_append, String.toList_ofList, String.toList_ofList, hrest] at htext
      rw [textOf_cons, String.toList_append, List.append_assoc, htext]

/-! ### Close tags in code -/

private theorem not_infix_of_forall_ne {s : List Char} (h : ∀ x ∈ s, x ≠ '?') :
    ¬ ['?', '>'] <:+: s :=
  fun hmark => h '?' (hmark.subset List.mem_cons_self) rfl

theorem mem_take_run {p : Char → Bool} {s : List Char} {x : Char}
    (hx : x ∈ s.take (run p s)) : p x := by
  rw [Text.take_run] at hx
  exact List.mem_takeWhile_imp hx

theorem ne_of_mem_run {p : Char → Bool} (hp : p '?' = false) {s : List Char} {x : Char}
    (hx : x ∈ s.take (run p s)) : x ≠ '?' := by
  rintro rfl
  rw [mem_take_run hx] at hp
  contradiction

theorem ne_of_mem_fraction {s : List Char} {x : Char} (hx : x ∈ s.take (fraction s)) :
    x ≠ '?' := by
  unfold fraction at hx
  split at hx
  · split at hx
    · contradiction
    · rw [Nat.add_comm, List.take_succ_cons] at hx
      rcases List.mem_cons.mp hx with rfl | hx
      · decide
      · exact ne_of_mem_run rfl hx
  · contradiction

private theorem ne_of_mem_exponent {s : List Char} {x : Char} (hx : x ∈ s.take (exponent s)) :
    x ≠ '?' := by
  unfold exponent at hx
  split at hx
  · rename_i e r
    split at hx
    · rename_i he
      extract_lets sign digits at hx
      split at hx
      · contradiction
      · rw [Nat.add_assoc, Nat.add_comm, List.take_succ_cons, List.take_add] at hx
        rcases List.mem_cons.mp hx with rfl | hx
        · rintro rfl
          contradiction
        rcases List.mem_append.mp hx with hx | hx
        · intro hmark
          rw [hmark] at hx
          cases r with
          | nil => simp at hx
          | cons d tail =>
            by_cases hsign : d = '+' ∨ d = '-'
            · have hone : sign = 1 := if_pos (by simpa [sign] using hsign)
              rw [hone, List.take_succ_cons, List.take_zero, List.mem_singleton] at hx
              rw [← hx] at hsign
              contradiction
            · have hzero : sign = 0 := if_neg (by simpa [sign] using hsign)
              rw [hzero, List.take_zero] at hx
              contradiction
        · exact ne_of_mem_run rfl hx
    · contradiction
  · contradiction

private theorem ne_of_mem_number {s : List Char} {x : Char} (hx : x ∈ s.take (number s)) :
    x ≠ '?' := by
  have hdecimal (hx : x ∈ s.take (number.decimal s)) : x ≠ '?' := by
    unfold number.decimal at hx
    extract_lets whole n at hx
    rw [List.take_add] at hx
    rcases List.mem_append.mp hx with hx | hx
    · rw [List.take_add] at hx
      rcases List.mem_append.mp hx with hx | hx
      · exact ne_of_mem_run rfl hx
      · exact ne_of_mem_fraction hx
    · exact ne_of_mem_exponent hx
  unfold number at hx
  split at hx
  · rename_i radix r
    split at hx
    · rename_i hradix
      rw [Nat.add_comm, List.take_succ_cons, List.take_succ_cons] at hx
      rcases List.mem_cons.mp hx with rfl | hx
      · decide
      rcases List.mem_cons.mp hx with rfl | hx
      · rintro rfl
        contradiction
      · exact ne_of_mem_run rfl hx
    · exact hdecimal hx
  · exact hdecimal hx

private theorem ne_of_mem_cast {s : List Char} {x : Char} {n : Nat} (h : cast? s = some n)
    (hx : x ∈ s.take n) : x ≠ '?' := by
  unfold cast? at h
  extract_lets before s' word s'' after at h
  split at h
  · rename_i hclose
    cases h
    rw [List.take_add, List.take_add, List.take_add] at hx
    rcases List.mem_append.mp hx with hx | hx
    · rcases List.mem_append.mp hx with hx | hx
      · rcases List.mem_append.mp hx with hx | hx
        · exact ne_of_mem_run rfl hx
        · exact ne_of_mem_run (p := Char.isAlpha) rfl hx
      · rw [← List.drop_drop] at hx
        exact ne_of_mem_run rfl hx
    · obtain ⟨tail, htail⟩ := List.head?_eq_some_iff.mp
        (eq_of_beq (Bool.and_eq_true_iff.mp hclose).2)
      rw [← List.drop_drop, ← List.drop_drop] at hx
      change x ∈ (s''.drop after).take 1 at hx
      rw [htail, List.take_succ_cons, List.take_zero, List.mem_singleton] at hx
      rw [hx]
      decide
  · contradiction

/-- A line comment ends in front of a close tag. -/
theorem not_infix_lineComment (s : List Char) :
    ¬ ['?', '>'] <:+: s.take (lineComment 0 s) := by
  induction s with
  | nil => simp
  | cons c r ih =>
    rw [lineComment_cons]
    split_ifs with hfeed hclose
    · intro h
      have := h.length_le
      rw [List.take_succ_cons, List.take_zero] at this
      contradiction
    · rw [List.take_zero]
      intro h
      contradiction
    · rw [lineComment_eq_add, Nat.add_comm, List.take_succ_cons, List.infix_cons_iff]
      rintro (hbegin | hrest)
      · obtain ⟨rfl, hnext⟩ := List.cons_prefix_cons.mp hbegin
        obtain ⟨rest, hrest⟩ := hnext.trans (List.take_prefix _ _)
        rw [← hrest] at hclose
        exact hclose rfl
      · exact ih hrest

/-- Characters of which none is a question mark, behind another one. -/
private theorem not_infix_cons {s : List Char} (hc : c ≠ '?') (h : ∀ x ∈ s, x ≠ '?') :
    ¬ ['?', '>'] <:+: c :: s :=
  not_infix_of_forall_ne (List.forall_mem_cons.mpr ⟨hc, h⟩)

theorem CodeToken.block_of_contains (h : CodeToken member c r kind n) (hcode : kind.isCode)
    (hmark : ['?', '>'] <:+: c :: r.take n) :
    kind = .string ∨ kind = .heredoc ∨
      (kind = .comment ∨ kind = .docComment) ∧ ['/', '*'] <+: c :: r.take n := by
  have hshort (hn : n = 0) : False := by
    have := hmark.length_le
    rw [hn, List.take_zero] at this
    contradiction
  have hcomment (hc : c ≠ '?') (hn : n = Token.lineComment 0 r) : False := by
    rw [hn, List.infix_cons_iff] at hmark
    rcases hmark with hbegin | hrest
    · exact hc (List.cons_prefix_cons.mp hbegin).1.symm
    · exact not_infix_lineComment r hrest
  cases h with
  | whitespace hc =>
    refine absurd hmark (not_infix_cons ?_ fun x hx => ne_of_mem_run rfl hx)
    rintro rfl
    contradiction
  | closeTag => contradiction
  | attributeMark => exact (hshort rfl).elim
  | hashComment hc => exact (hcomment (hc ▸ by decide) rfl).elim
  | lineComment hc => exact (hcomment (hc ▸ by decide) rfl).elim
  | blockComment hc hr h =>
    obtain ⟨hkind, hn⟩ := blockComment_eq_ok h
    refine Or.inr (Or.inr ⟨hkind, ?_⟩)
    obtain ⟨m, rfl⟩ := Nat.exists_eq_add_of_le' (Nat.le_trans (by decide : 1 ≤ 3) hn)
    rw [hc, hr, List.take_succ_cons]
    exact ⟨_, rfl⟩
  | variableName hc => exact absurd hmark (not_infix_cons (hc ▸ by decide) fun x hx =>
      ne_of_mem_run rfl hx)
  | nsSeparator => exact (hshort rfl).elim
  | singleQuoted => exact Or.inl rfl
  | doubleQuoted => exact Or.inl rfl
  | heredoc hc hr h =>
    rcases heredoc_eq_ok h with rfl | ⟨_, rfl⟩
    · exact Or.inr (Or.inl rfl)
    · rw [hc, hr, List.take_succ_cons, List.take_zero] at hmark
      exact absurd hmark (by decide)
  | cast hc h => exact absurd hmark (not_infix_cons (hc ▸ by decide) fun x hx =>
      ne_of_mem_cast h hx)
  | number hc =>
    refine absurd hmark (not_infix_cons ?_ ?_)
    · rintro rfl
      simp at hc
    · intro x hx
      refine ne_of_mem_number (s := c :: r) ?_
      cases hlength : Token.number (c :: r) with
      | zero =>
        rw [hlength] at hx
        contradiction
      | succ m =>
        rw [hlength] at hx
        exact List.mem_cons_of_mem c hx
  | word hc =>
    refine absurd hmark (not_infix_cons ?_ fun x hx => ne_of_mem_run rfl hx)
    rintro rfl
    contradiction
  | operator h =>
    rcases scanOperator_eq_ok h with ⟨op, hop, hbegin, _, rfl⟩ | ⟨_, _, rfl⟩
    · have hfree : ∀ op ∈ operators, op.length - 1 + 1 = op.length ∧
          ¬ ['?', '>'] <:+: op.toList := by
        decide
      obtain ⟨hpos, hno⟩ := hfree op hop
      rw [← List.take_succ_cons, hpos, ← String.length_toList,
        ← List.prefix_iff_eq_take.mp hbegin] at hmark
      exact absurd hmark hno
    · exact (hshort rfl).elim

/-! ### Files -/

theorem not_opensCode_of_scan {p : Position} (h : p.scan c r = .ok (.inlineHtml, n)) {i : Nat}
    (hi : i < (p.token .inlineHtml c r n).text.length) : ¬ OpensCode ((c :: r).drop i) := by
  have hlength : (p.token .inlineHtml c r n).text.length = min n r.length + 1 := by
    change (String.ofList (c :: r.take n)).length = _
    rw [String.length_ofList, List.length_cons, List.length_take]
  unfold Position.scan at h
  split at h
  · exact absurd ((codeToken_of_scanCode h).isCode nofun) Bool.false_ne_true
  · rw [← isSome_openTag?_iff, Option.not_isSome_iff_eq_none]
    cases htag : openTag? (c :: r) with
    | some tag =>
      obtain ⟨tagKind, length⟩ := tag
      unfold scanText at h
      rw [htag] at h
      cases h
      obtain hkind | hkind := kind_of_openTag? htag <;> contradiction
    | none =>
      obtain ⟨m, hm, hnone, _⟩ := openTag?_of_text htag
      rw [hm] at h
      cases h
      exact hnone i (by omega) (by omega)

theorem block_of_scan {p : Position} (h : p.scan c r = .ok (kind, n)) (hcode : kind.isCode)
    (hmark : ['?', '>'] <:+: (p.token kind c r n).text.toList) :
    kind = .string ∨ kind = .heredoc ∨ (p.token kind c r n).IsBlockComment := by
  have htext : (p.token kind c r n).text.toList = c :: r.take n := String.toList_ofList
  unfold IsBlockComment
  rw [htext] at hmark ⊢
  unfold Position.scan at h
  split at h
  · exact (codeToken_of_scanCode h).block_of_contains hcode hmark
  · exfalso
    cases htag : openTag? (c :: r) with
    | some tag =>
      obtain ⟨tagKind, length⟩ := tag
      unfold scanText at h
      rw [htag] at h
      cases h
      obtain hkind | hkind := kind_of_openTag? htag <;> rw [hkind] at hcode <;> contradiction
    | none =>
      obtain ⟨m, hm, _⟩ := openTag?_of_text htag
      rw [hm] at h
      cases h
      contradiction

/--
The tokens of a file are blocks of code, each with its tags and with at most one text in front of
it. A text goes as far as no open tag begins in it, and code as far as no close tag stands in it
but for those that belong to a quoted text, a heredoc or a block comment.
-/
theorem ofContent_alternates {content : ByteArray} {tokens : List Token}
    (h : ofContent content = .ok tokens) :
    tokens.map (·.kind) ∈ Alternation.file ∧
    (∃ source : String, source.toByteArray = content ∧
      ∀ before t after, tokens = before ++ t :: after → t.kind = .inlineHtml →
        ∀ i < t.text.length, ¬ OpensCode (source.toList.drop ((textOf before).length + i))) ∧
    ∀ t ∈ tokens, t.kind.isCode → ['?', '>'] <:+: t.text.toList →
      t.kind = .string ∨ t.kind = .heredoc ∨ t.IsBlockComment := by
  obtain ⟨source, hsource, hs⟩ := ofContent_eq_ok_iff.mp h
  refine ⟨((kinds_of_tokensFrom hs).2 rfl).1, ⟨source, hsource, ?_⟩, ?_⟩
  · intro before t after htokens hkind i hi
    rw [htokens] at hs
    obtain ⟨p, c, r, kind, n, hrest, hscan, rfl⟩ := exists_scan_of_tokensFrom hs
    have hkind : kind = .inlineHtml := hkind
    subst hkind
    rw [hrest, ← String.length_toList, List.drop_length_add_append]
    exact not_opensCode_of_scan hscan hi
  · intro t ht hcode hmark
    obtain ⟨before, after, htokens⟩ := List.append_of_mem ht
    rw [htokens] at hs
    obtain ⟨p, c, r, kind, n, _, hscan, rfl⟩ := exists_scan_of_tokensFrom hs
    exact block_of_scan hscan hcode hmark

/-- A line comment is ended by a close tag, and the file ends in code. -/
theorem ofContent_alternates_line_comment :
    ∃ tokens, ofContent "<p><?xml <?php // x ?>\n<?= '?>'".toUTF8 = .ok tokens ∧
      tokens.map (fun t => (t.kind, t.text)) = [(.inlineHtml, "<p><?xml "), (.openTag, "<?php "),
        (.comment, "// x "), (.closeTag, "?>\n"), (.openTagWithEcho, "<?="), (.whitespace, " "),
        (.string, "'?>'")] ∧
      tokens.map (·.kind) ∈ Alternation.file := by
  have htokens : (ofContent "<p><?xml <?php // x ?>\n<?= '?>'".toUTF8).toOption.map
      (fun ts => ts.map fun t => (t.kind, t.text)) = some [(.inlineHtml, "<p><?xml "),
        (.openTag, "<?php "), (.comment, "// x "), (.closeTag, "?>\n"), (.openTagWithEcho, "<?="),
        (.whitespace, " "), (.string, "'?>'")] := by
    decide +kernel
  cases h : ofContent "<p><?xml <?php // x ?>\n<?= '?>'".toUTF8 with
  | error e =>
    rw [h] at htokens
    contradiction
  | ok tokens =>
    rw [h] at htokens
    exact ⟨tokens, rfl, Option.some.inj htokens, (ofContent_alternates h).1⟩

end PhpLint.Token
