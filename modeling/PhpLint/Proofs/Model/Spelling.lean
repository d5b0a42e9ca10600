import PhpLint.Proofs.Model.Naming
import PhpLint.Proofs.Token.Mode

/-!
How names are spelled. The full name of a declaration consists of words with separators between
them: it neither begins nor ends with a separator, but it may hold several in a row.
-/
namespace PhpLint

/-- Whether a text is an identifier: the characters of a word, at least one of them. -/
def Token.IsWord (text : String) : Prop :=
  text ≠ "" ∧ ∀ c ∈ text.toList, Token.isWordChar c

/-- Whether a text can name a namespace. The name of the global one is empty. -/
structure Namespace.IsName (name : String) : Prop where
  chars : ∀ c ∈ name.toList, Token.isWordChar c ∨ c = '\\'
  head : name.toList.head? ≠ some '\\'

/-- Whether a text can be the full name of a class or function. -/
structure IsFullName (name : String) : Prop extends Namespace.IsName name where
  last : ∃ c, name.toList.getLast? = some c ∧ Token.isWordChar c

/-- Whether identifiers are words, and separators what they are called. -/
structure Token.Spelled (ts : List Token) : Prop where
  word : ∀ t ∈ ts, t.isIdentifier → Token.IsWord t.text
  separator : ∀ t ∈ ts, t.kind = .nsSeparator → t.text = "\\"

/-! ### Tokens -/

namespace Token

variable {member : Bool} {c : Char} {r : List Char} {kind : Kind} {n : Nat}

theorem ne_separator_of_isWordChar (h : isWordChar c) : c ≠ '\\' := by
  rintro rfl
  exact absurd h (by decide)

theorem isWordChar_of_codeToken (h : CodeToken member c r kind n)
    (hkind : kind = .keyword ∨ kind = .name) : ∀ x ∈ c :: r.take n, isWordChar x := by
  cases h with
  | word hc =>
    refine List.forall_mem_cons.mpr ⟨?_, fun x hx => mem_take_run hx⟩
    unfold isWordChar
    rw [hc, Bool.true_or]
  | blockComment _ _ h => obtain ⟨rfl | rfl, _⟩ := blockComment_eq_ok h <;> simp at hkind
  | heredoc _ _ h => obtain rfl | ⟨rfl, _⟩ := heredoc_eq_ok h <;> simp at hkind
  | operator h =>
    obtain ⟨_, _, _, rfl, _⟩ | ⟨_, rfl, _⟩ := scanOperator_eq_ok h <;> simp at hkind
  | _ => simp at hkind

theorem separator_of_codeToken (h : CodeToken member c r .nsSeparator n) : c = '\\' ∧ n = 0 := by
  generalize hkind : Kind.nsSeparator = kind at h
  cases h with
  | nsSeparator hc => exact ⟨hc, rfl⟩
  | word hc => split at hkind <;> contradiction
  | blockComment _ _ h => obtain ⟨rfl | rfl, _⟩ := blockComment_eq_ok h <;> contradiction
  | heredoc _ _ h => obtain rfl | ⟨rfl, _⟩ := heredoc_eq_ok h <;> contradiction
  | operator h =>
    obtain ⟨_, _, _, rfl, _⟩ | ⟨_, rfl, _⟩ := scanOperator_eq_ok h <;> contradiction
  | _ => contradiction

theorem codeToken_of_scan {p : Position} (h : p.scan c r = .ok (kind, n)) (hcode : kind.isCode) :
    CodeToken p.member c r kind n := by
  unfold Position.scan at h
  split at h
  · exact codeToken_of_scanCode h
  · unfold scanText at h
    split at h
    · rename_i tag length htag
      cases h
      obtain hkind | hkind := kind_of_openTag? htag <;> rw [hkind] at hcode <;> contradiction
    · cases h
      contradiction

theorem spelled_of_tokensFrom {p : Position} {s : List Char} {ts : List Token}
    (h : tokensFrom p s = .ok ts) : Spelled ts := by
  have hscan {t : Token} (ht : t ∈ ts) (hcode : t.kind.isCode) :
      ∃ (member : Bool) (c : Char) (r : List Char) (n : Nat),
        CodeToken member c r t.kind n ∧ t.text = String.ofList (c :: r.take n) := by
    obtain ⟨before, after, rfl⟩ := List.append_of_mem ht
    obtain ⟨q, c, r, kind, n, _, hscan, rfl⟩ := exists_scan_of_tokensFrom h
    exact ⟨q.member, c, r, n, codeToken_of_scan hscan hcode, rfl⟩
  constructor
  · intro t ht hidentifier
    have hkind : t.kind = .keyword ∨ t.kind = .name := by
      simpa [isIdentifier] using hidentifier
    obtain ⟨member, c, r, n, htoken, htext⟩ :=
      hscan ht (by obtain hkind | hkind := hkind <;> rw [hkind] <;> rfl)
    rw [htext]
    refine ⟨by simp, ?_⟩
    rw [String.toList_ofList]
    exact isWordChar_of_codeToken htoken hkind
  · intro t ht hkind
    obtain ⟨member, c, r, n, htoken, htext⟩ := hscan ht (by rw [hkind]; rfl)
    rw [hkind] at htoken
    obtain ⟨rfl, rfl⟩ := separator_of_codeToken htoken
    rw [htext, List.take_zero]

theorem spelled_of_ofContent {content : ByteArray} {ts : List Token}
    (h : ofContent content = .ok ts) : Spelled ts := by
  obtain ⟨s, _, hs⟩ := ofContent_eq_ok_iff.mp h
  exact spelled_of_tokensFrom hs

end Token

/-! ### Names that are put together -/

section Names

variable {space word : String} {s : List Lexeme}

theorem Token.IsWord.isFullName (h : Token.IsWord word) : IsFullName word where
  chars c hc := Or.inl (h.2 c hc)
  head hhead := Token.ne_separator_of_isWordChar (h.2 _ (List.mem_of_mem_head? hhead)) rfl
  last := by
    have hne : word.toList ≠ [] := by simpa using h.1
    exact ⟨_, List.getLast?_eq_some_getLast hne, h.2 _ (List.getLast_mem hne)⟩

/-- A word in a namespace is a full name. -/
theorem Namespace.IsName.qualifyLocal (h : Namespace.IsName space) (hword : Token.IsWord word) :
    IsFullName (Namespace.qualifyLocal space word) := by
  unfold Namespace.qualifyLocal
  split
  · exact hword.isFullName
  · rename_i hempty
    have htext : (space ++ "\\" ++ word).toList = space.toList ++ '\\' :: word.toList := by simp
    have hne : space.toList ≠ [] := by simpa using hempty
    refine ⟨⟨fun c hc => ?_, ?_⟩, ?_⟩
    · rw [htext, List.mem_append, List.mem_cons] at hc
      obtain hc | hc | hc := hc
      · exact h.chars c hc
      · exact Or.inr hc
      · exact Or.inl (hword.2 c hc)
    · rw [htext, List.head?_append_of_ne_nil _ hne]
      exact h.head
    · obtain ⟨c, hlast, hc⟩ := hword.isFullName.last
      refine ⟨c, ?_, hc⟩
      have hcons : ('\\' :: word.toList).getLast? = some c := by
        rw [List.getLast?_cons, hlast]
        rfl
      rw [htext, List.getLast?_append, hcons, Option.some_or]

theorem Lexeme.chars_nameRest (hs : ∀ x ∈ s, x.isNamePart →
      ∀ c ∈ x.text.toList, Token.isWordChar c ∨ c = '\\') :
    ∀ c ∈ (Lexeme.nameRest s).1.toList, Token.isWordChar c ∨ c = '\\' := by
  induction s with
  | nil => exact fun c hc => absurd hc List.not_mem_nil
  | cons x r ih =>
    rw [Lexeme.nameRest]
    split
    · rename_i hpart
      intro c hc
      rw [String.toList_append, List.mem_append] at hc
      obtain hc | hc := hc
      · exact hs x List.mem_cons_self (Bool.and_eq_true_iff.mp hpart).2 c hc
      · exact ih (fun y hy => hs y (List.mem_cons_of_mem x hy)) c hc
    · exact fun c hc => absurd hc List.not_mem_nil

/-- What is written behind a keyword names a namespace, without the separators in front. -/
theorem Lexeme.isName_readName (hs : ∀ x ∈ s, x.isNamePart →
      ∀ c ∈ x.text.toList, Token.isWordChar c ∨ c = '\\') :
    Namespace.IsName (Text.dropLeading '\\' (Lexeme.readName s).1) := by
  have hchars : ∀ c ∈ (Lexeme.readName s).1.toList, Token.isWordChar c ∨ c = '\\' := by
    cases s with
    | nil => exact fun c hc => absurd hc List.not_mem_nil
    | cons x r =>
      rw [Lexeme.readName]
      split
      · rename_i hpart
        intro c hc
        rw [String.toList_append, List.mem_append] at hc
        obtain hc | hc := hc
        · exact hs x List.mem_cons_self hpart c hc
        · exact Lexeme.chars_nameRest (fun y hy => hs y (List.mem_cons_of_mem x hy)) c hc
      · exact fun c hc => absurd hc List.not_mem_nil
  unfold Text.dropLeading
  constructor
  · intro c hc
    rw [String.toList_ofList] at hc
    exact hchars c ((List.dropWhile_suffix _).subset hc)
  · rw [String.toList_ofList]
    intro hhead
    have hnot := List.head?_dropWhile_not (· == '\\') (Lexeme.readName s).1.toList
    rw [hhead] at hnot
    exact absurd hnot (by decide)

end Names

/-! ### Names of the pass -/

namespace Outline

variable {ts : List Token} {before after s : List Lexeme} {x : Lexeme}

theorem chars_of_isNamePart (hs : Token.Spelled ts)
    (hsplit : Lexeme.ofTokens false ts = before.reverse ++ s) :
    ∀ y ∈ s, y.isNamePart → ∀ c ∈ y.text.toList, Token.isWordChar c ∨ c = '\\' := by
  intro y hy hpart c hc
  have hmem := (Accepted.mem hsplit hy).1
  unfold Lexeme.isNamePart at hpart
  rw [Bool.or_eq_true, beq_iff_eq] at hpart
  obtain hpart | hpart := hpart
  · exact Or.inl ((hs.word _ hmem hpart).2 c hc)
  · rw [hs.separator _ hmem hpart] at hc
    exact Or.inr (List.mem_singleton.mp hc)

namespace Pass

variable {p p' : Pass} {size i : Nat}

theorem forall_endNamespace {P : String → Prop} (h : ∀ ns ∈ p.namespaces, P ns.name) (i : Nat) :
    ∀ ns ∈ (p.endNamespace i).namespaces, P ns.name := by
  have hpop : ∀ ns ∈ p.namespaces.pop, P ns.name := by
    intro ns hns
    rw [← Array.mem_toList_iff, Array.toList_pop] at hns
    exact h ns (Array.mem_toList_iff.mp (List.mem_of_mem_dropLast hns))
  unfold endNamespace
  split
  · exact h
  · rename_i last hlast
    split
    · exact hpop
    · exact forall_push hpop (h last (Array.mem_of_back? hlast))

/-- A step keeps what holds of the names of all namespaces. -/
theorem Spaces.forall_names {P : String → Prop} (h : p.Spaces size before x after p')
    (hold : ∀ ns ∈ p.namespaces, P ns.name) (hglobal : P "")
    (hnew : P (Text.dropLeading '\\' (Lexeme.readName after).1)) :
    ∀ ns ∈ p'.namespaces, P ns.name := by
  cases h with
  | same hnamespaces => rwa [hnamespaces]
  | ends _ _ hnamespaces =>
    rw [hnamespaces]
    refine forall_push ?_ hglobal
    exact forall_modify hold _ fun ns _ hns => hns
  | imports _ hnamespaces =>
    rw [hnamespaces]
    exact forall_modify hold _ fun ns _ hns => hns
  | declared _ _ hnamespaces hname =>
    rw [hnamespaces]
    exact forall_push (forall_endNamespace hold x.index) (hname ▸ hnew)

theorem Reaches.isName_namespaces (h : Reaches ts before p) (hs : Token.Spelled ts) :
    ∀ ns ∈ p.namespaces, Namespace.IsName ns.name := by
  have hglobal : Namespace.IsName "" := ⟨fun c hc => absurd hc List.not_mem_nil, nofun⟩
  induction h with
  | start =>
    intro ns hns
    rw [Array.mem_singleton.mp hns]
    exact hglobal
  | @step p before after x h hsplit ih =>
    refine (step_cases p ts.length before x after).spaces.forall_names ih hglobal ?_
    exact Lexeme.isName_readName fun y hy =>
      chars_of_isNamePart hs hsplit y (List.mem_cons_of_mem x hy)

theorem Reaches.isName_namespaceName (h : Reaches ts before p) (hs : Token.Spelled ts) :
    Namespace.IsName p.namespaceName := by
  unfold namespaceName
  cases hback : p.namespaces.back? with
  | none => exact ⟨fun c hc => absurd hc List.not_mem_nil, nofun⟩
  | some ns => exact h.isName_namespaces hs ns (Array.mem_of_back? hback)

/-- A word behind the keyword of a declaration makes a full name. -/
theorem Reaches.isFullName_qualifyLocal (h : Reaches ts before p) (hs : Token.Spelled ts)
    (hsplit : Lexeme.ofTokens false ts = before.reverse ++ x :: after) {y : Lexeme}
    (hy : y ∈ after) (hidentifier : y.isIdentifier) :
    IsFullName (Namespace.qualifyLocal p.namespaceName y.text) :=
  (h.isName_namespaceName hs).qualifyLocal
    (hs.word _ (Accepted.mem hsplit (List.mem_cons_of_mem x hy)).1 hidentifier)

theorem Reaches.isFullName_classes (h : Reaches ts before p) (hs : Token.Spelled ts) :
    ∀ c ∈ p.classes, c.nameIndex.isSome → IsFullName c.name := by
  induction h with
  | start => intro c hc; simp [Pass.start] at hc
  | @step p before after x h hsplit ih =>
    refine (step_cases p ts.length before x after).forall_classes ih
      (fun c _ _ _ _ _ hc => hc) fun kind c _ hclass _ hnamed => ?_
    obtain ⟨_, _, _, _, hname, _⟩ := class?_eq_some hclass
    obtain ⟨n, hn⟩ := Option.isSome_iff_exists.mp hnamed
    rw [hn] at hname
    obtain ⟨y, hy, hidentifier, _, heq⟩ := name_of_className? hname
    rw [heq]
    exact h.isFullName_qualifyLocal hs hsplit hy hidentifier

theorem Reaches.isFullName_functions (h : Reaches ts before p) (hs : Token.Spelled ts) :
    ∀ f ∈ p.functions, f.classId = none → ∀ name, f.name = some name → IsFullName name := by
  induction h with
  | start => intro f hf; simp [Pass.start] at hf
  | @step p before after x h hsplit ih =>
    refine (step_cases p ts.length before x after).forall_functions ih (fun f _ hf => hf)
      fun isArrow header _ hread _ hclass name hname => ?_
    cases hheader : header.name with
    | none =>
      unfold functionRecord at hname
      rw [hheader] at hname
      contradiction
    | some y =>
      obtain ⟨hy, hidentifier⟩ := Signature.mem_of_name hread hheader
      have hmethod : p.classBody = none := by
        unfold functionRecord at hclass
        simpa [hheader] using hclass
      have heq : Namespace.qualifyLocal p.namespaceName y.text = name := by
        unfold functionRecord at hname
        simpa [hheader, hmethod] using hname
      rw [← heq]
      exact h.isFullName_qualifyLocal hs hsplit hy hidentifier

end Pass

end Outline

/-! ### Names of a file -/

open Outline

namespace SourceFile

/-- Whether a file is what some source text is parsed to. -/
def IsParsed (file : SourceFile) : Prop :=
  ∃ name content, SourceFile.parse name content = .ok file

variable {file : SourceFile}

/-- A class of a file that has a name has a full one. -/
theorem IsParsed.isFullName_class (h : file.IsParsed) {c : Class} (hc : c ∈ file.classes)
    (hnamed : c.nameIndex.isSome) : IsFullName c.name := by
  obtain ⟨name, content, h⟩ := h
  obtain ⟨ts, found, hts, ha, rfl⟩ := parse_eq_ok h
  obtain ⟨c', hc', rfl⟩ := Array.mem_map.mp hc
  exact (Pass.reaches_final ts).isFullName_classes (Token.spelled_of_ofContent hts) c' hc' hnamed

/-- So has a function outside classes. -/
theorem IsParsed.isFullName_function (h : file.IsParsed) {f : Function} (hf : f ∈ file.functions)
    (hfree : f.classId = none) {fullName : String} (hname : f.name = some fullName) :
    IsFullName fullName := by
  obtain ⟨name, content, h⟩ := h
  obtain ⟨ts, found, hts, ha, rfl⟩ := parse_eq_ok h
  obtain ⟨f', hf', rfl⟩ := Array.mem_map.mp hf
  exact (Pass.reaches_final ts).isFullName_functions (Token.spelled_of_ofContent hts) f' hf' hfree
    fullName hname

/-- The token of its name is known. -/
theorem IsParsed.exists_nameIndex (h : file.IsParsed) {f : Function} (hf : f ∈ file.functions)
    (hfree : f.classId = none) {fullName : String} (hname : f.name = some fullName) :
    ∃ n, f.nameIndex = some n := by
  obtain ⟨name, content, h⟩ := h
  obtain ⟨ts, found, _, ha, rfl⟩ := parse_eq_ok h
  obtain ⟨f', hf', rfl⟩ := Array.mem_map.mp hf
  obtain ⟨n, _, hn, _⟩ :=
    ((Pass.reaches_final ts).functions_named ha f' hf').2 fullName hname hfree
  exact ⟨n, hn⟩

end SourceFile

end PhpLint
