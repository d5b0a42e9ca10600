import PhpLint.Proofs.Model.Spelling

/-!
How `use` statements are written, and what they bind. Main statement: reading a written statement finds
its bindings, in their order, and stops at the terminator.
-/
namespace PhpLint.Import

open Lexeme (not_is_of_is not_is_of_kind not_isKeyword_of_is not_isKeyword_of_kind
  not_isTerminator_of_is)

/-- What a statement or an entry of a group imports. -/
inductive Kind where
  | ofClass
  | ofFunction
  | ofConstant
  deriving DecidableEq, Repr

/-- A qualified name without a leading separator. -/
structure Path where
  front : List String
  last : String
  deriving DecidableEq, Repr

/-- An entry of a group. -/
structure Entry where
  kind : Kind
  path : Path
  alias? : Option String
  deriving DecidableEq, Repr

inductive Clause where
  | single (leading : Bool) (path : Path) (alias? : Option String)
  /-- A comma may follow the last entry. -/
  | group (leading : Bool) (path : Path) (entries : List Entry) (comma : Bool)
  deriving DecidableEq, Repr

/-- A statement with one clause or more. -/
structure Statement where
  kind : Kind
  first : Clause
  more : List Clause
  deriving DecidableEq, Repr

/-! ### What a statement binds -/

def Path.text (path : Path) : String :=
  String.join (path.front.map (· ++ "\\")) ++ path.last

/-- The short name in lower case, and the full name. -/
def Path.binding (path : Path) (space : String) (alias? : Option String) : String × String :=
  (Text.fold (alias?.getD path.last), space ++ path.text)

def Entry.bindings (space : String) (e : Entry) : ImportMap :=
  if e.kind = .ofClass then [e.path.binding space e.alias?] else []

def Clause.bindings : Clause → ImportMap
  | .single _ path alias? => [path.binding "" alias?]
  | .group _ path entries _ => entries.flatMap (·.bindings (path.text ++ "\\"))

def Statement.bindings (u : Statement) : ImportMap :=
  if u.kind = .ofClass then (u.first :: u.more).flatMap (·.bindings) else []

/-! ### How a statement is written -/

/-- A lexeme of a written statement. -/
inductive Mark where
  | word (text : String)
  | separator
  | as
  | function
  | const
  | comma
  | opening
  | closing
  deriving DecidableEq, Repr

def Mark.Spells (x : Lexeme) : Mark → Prop
  | .word text => x.kind = .name ∧ x.text = text
  | .separator => x.kind = .nsSeparator
  | .as => x.isKeyword "as"
  | .function => x.isKeyword "function"
  | .const => x.isKeyword "const"
  | .comma => x.is ","
  | .opening => x.is "\x7b"
  | .closing => x.is "\x7d"

instance (x : Lexeme) : (m : Mark) → Decidable (m.Spells x)
  | .word text => inferInstanceAs (Decidable (x.kind = .name ∧ x.text = text))
  | .separator => inferInstanceAs (Decidable (x.kind = .nsSeparator))
  | .as => inferInstanceAs (Decidable (x.isKeyword "as" = true))
  | .function => inferInstanceAs (Decidable (x.isKeyword "function" = true))
  | .const => inferInstanceAs (Decidable (x.isKeyword "const" = true))
  | .comma => inferInstanceAs (Decidable (x.is "," = true))
  | .opening => inferInstanceAs (Decidable (x.is "\x7b" = true))
  | .closing => inferInstanceAs (Decidable (x.is "\x7d" = true))

def Kind.marks : Kind → List Mark
  | .ofClass => []
  | .ofFunction => [.function]
  | .ofConstant => [.const]

def Path.marks (path : Path) : List Mark :=
  path.front.flatMap (fun word => [.word word, .separator]) ++ [.word path.last]

def leadingMarks (leading : Bool) : List Mark :=
  if leading then [.separator] else []

def aliasMarks : Option String → List Mark
  | none => []
  | some word => [.as, .word word]

def commaMarks (comma : Bool) : List Mark :=
  if comma then [.comma] else []

def Entry.marks (e : Entry) : List Mark :=
  e.kind.marks ++ e.path.marks ++ aliasMarks e.alias?

def Clause.marks : Clause → List Mark
  | .single leading path alias? => leadingMarks leading ++ path.marks ++ aliasMarks alias?
  | .group leading path entries comma =>
    leadingMarks leading ++ path.marks ++ [.separator, .opening] ++
      [Mark.comma].intercalate (entries.map (·.marks)) ++ commaMarks comma ++ [.closing]

def Statement.marks (u : Statement) : List Mark :=
  u.kind.marks ++ [Mark.comma].intercalate ((u.first :: u.more).map (·.marks))

/-- The lexemes are what is written. -/
def Spells (s : List Lexeme) (marks : List Mark) : Prop :=
  List.Forall₂ Mark.Spells s marks

instance (s : List Lexeme) (marks : List Mark) : Decidable (Spells s marks) :=
  inferInstanceAs (Decidable (List.Forall₂ Mark.Spells s marks))

variable {p : Progress} {x y : Lexeme} {r s : List Lexeme} {ts : List Token}

/-! ### Reading one lexeme -/

theorem readFrom_cons (halias : p.aliasNext = false) (hterminator : x.isTerminator = false)
    (has : x.isKeyword "as" = false) : readFrom p (x :: r) = readFrom (p.next x) r := by
  rw [readFrom, halias, hterminator, has]
  rfl

theorem readFrom_terminator (halias : p.aliasNext = false) (hy : y.isTerminator) :
    readFrom p (y :: r) = (p.finish, y :: r) := by
  rw [readFrom, halias, hy]
  rfl

theorem readFrom_as (halias : p.aliasNext = false) (hterminator : x.isTerminator = false)
    (has : x.isKeyword "as") :
    readFrom p (x :: y :: r) = readFrom { p with alias? := some y.text, aliasNext := false } r := by
  rw [readFrom, halias, hterminator, has, if_neg Bool.false_ne_true, if_neg Bool.false_ne_true,
    if_pos rfl, readFrom]
  rfl

/-! ### Reading the parts of a statement -/

theorem readFrom_comma (halias : p.aliasNext = false) (hx : x.is ",") :
    readFrom p (x :: r) = readFrom ⟨p.finish, p.group, "", none, false, false⟩ r := by
  rw [readFrom_cons halias (not_isTerminator_of_is hx (by decide)) (not_isKeyword_of_is hx)]
  unfold Progress.next
  rw [hx, not_is_of_is hx (by decide), not_is_of_is hx (by decide)]
  rfl

theorem readFrom_closing (halias : p.aliasNext = false) (hx : x.is "\x7d") :
    readFrom p (x :: r) = readFrom ⟨p.finish, "", "", none, false, false⟩ r := by
  rw [readFrom_cons halias (not_isTerminator_of_is hx (by decide)) (not_isKeyword_of_is hx)]
  unfold Progress.next
  rw [hx, not_is_of_is hx (by decide), not_is_of_is hx (by decide)]
  rfl

theorem readFrom_opening (halias : p.aliasNext = false) (hx : x.is "\x7b") :
    readFrom p (x :: r) = readFrom { p with group := p.name, name := "" } r := by
  rw [readFrom_cons halias (not_isTerminator_of_is hx (by decide)) (not_isKeyword_of_is hx)]
  unfold Progress.next
  rw [hx]
  rfl

/-- The lexemes of a name are put together. -/
theorem readFrom_name (hs : ∀ x ∈ s, x.kind = .name ∨ x.kind = .nsSeparator)
    (halias : p.aliasNext = false) :
    readFrom p (s ++ r) = readFrom { p with name := p.name ++ String.join (s.map (·.text)) } r := by
  induction s generalizing p with
  | nil => simp
  | cons x s ih =>
    obtain ⟨hx, hs⟩ := List.forall_mem_cons.mp hs
    have hkind : (x.kind ≠ .punct ∧ x.kind ≠ .operator) ∧ x.kind ≠ .keyword ∧ x.kind ≠ .closeTag := by
      rcases hx with hx | hx <;> rw [hx] <;> decide
    have hpart : x.isNamePart := by
      unfold Lexeme.isNamePart Token.isIdentifier
      rcases hx with hx | hx <;> rw [hx] <;> rfl
    have hterminator : x.isTerminator = false := by
      unfold Token.isTerminator
      rw [not_is_of_kind hkind.1]
      simpa using hkind.2.2
    have hnext : p.next x = { p with name := p.name ++ x.text } := by
      unfold Progress.next
      simp [not_is_of_kind hkind.1, not_isKeyword_of_kind hkind.2.1, hpart]
    rw [List.cons_append, readFrom_cons halias hterminator (not_isKeyword_of_kind hkind.2.1), hnext,
      ih (p := { p with name := p.name ++ x.text }) hs halias, List.map_cons, String.join_cons,
      String.append_assoc]

/-! ### Texts -/

/-- The lexemes of a written name are put together to its text. -/
theorem spells_path {path : Path} (h : Spells s path.marks) (hspelled : Token.Spelled ts)
    (hs : ∀ x ∈ s, x.toToken ∈ ts) :
    (∀ x ∈ s, x.kind = .name ∨ x.kind = .nsSeparator) ∧
      String.join (s.map (·.text)) = path.text ∧
      ∀ word ∈ path.front ++ [path.last], Token.IsWord word := by
  obtain ⟨front, last⟩ := path
  have hword {x : Lexeme} {word : String} (hx : x.kind = .name ∧ x.text = word)
      (hmem : x.toToken ∈ ts) : Token.IsWord word := by
    rw [← hx.2]
    refine hspelled.word _ hmem ?_
    unfold Token.isIdentifier
    rw [hx.1]
    rfl
  induction front generalizing s with
  | nil =>
    obtain ⟨x, _, hx, hnil, rfl⟩ := List.forall₂_cons_right_iff.mp h
    obtain rfl := List.forall₂_nil_right_iff.mp hnil
    refine ⟨?_, ?_, ?_⟩
    · simpa using Or.inl hx.1
    · simp [Path.text, hx.2]
    · simpa using hword hx (hs x (by simp))
  | cons word front ih =>
    obtain ⟨x, _, hx, hbehind, rfl⟩ := List.forall₂_cons_right_iff.mp h
    obtain ⟨y, s, hy, hrest, rfl⟩ := List.forall₂_cons_right_iff.mp hbehind
    obtain ⟨hkinds, htext, hwords⟩ := ih (fun z hz => hs z (by simp [hz])) hrest
    have hsep : y.text = "\\" := hspelled.separator _ (hs y (by simp)) hy
    refine ⟨?_, ?_, ?_⟩
    · exact List.forall_mem_cons.mpr ⟨Or.inl hx.1, List.forall_mem_cons.mpr ⟨Or.inr hy, hkinds⟩⟩
    · rw [List.map_cons, List.map_cons, String.join_cons, String.join_cons, htext, hx.2, hsep]
      simp [Path.text, String.append_assoc]
    · exact List.forall_mem_cons.mpr ⟨hword hx (hs x (by simp)), hwords⟩

theorem isWord_iff {word : String} (h : Token.IsWord word) :
    word.toList ≠ [] ∧ ∀ c ∈ word.toList, c ≠ '\\' :=
  ⟨fun hnil => h.1 (String.toList_inj.mp (hnil.trans String.toList_empty.symm)),
    fun c hc => Token.ne_separator_of_isWordChar (h.2 c hc)⟩

/-- The last segment of a name is what stands behind its last separator. -/
theorem lastSegment_append {space word : String} (hspace : space = "" ∨ ∃ t, space = t ++ "\\")
    (hword : Token.IsWord word) : lastSegment (space ++ word) = word := by
  have hall : ∀ c ∈ word.toList.reverse, (c != '\\') = true := fun c hc => by
    simpa using (isWord_iff hword).2 c (List.mem_reverse.mp hc)
  unfold lastSegment
  rw [String.toList_append, List.reverse_append, List.takeWhile_append_of_pos hall]
  have hnil : space.toList.reverse.takeWhile (· != '\\') = [] := by
    rcases hspace with rfl | ⟨t, rfl⟩
    · rfl
    · rw [String.toList_append, List.reverse_append]
      rfl
  rw [hnil, List.append_nil, List.reverse_reverse, String.ofList_toList]

/-- Separators in front of a full name are dropped. -/
theorem dropLeading_append {leading name : String} (hleading : ∀ c ∈ leading.toList, c = '\\')
    (hname : name.toList.head? ≠ some '\\') : Text.dropLeading '\\' (leading ++ name) = name := by
  unfold Text.dropLeading
  rw [String.toList_append, List.dropWhile_append_of_pos fun c hc => by simpa using hleading c hc]
  cases hs : name.toList with
  | nil => rw [← String.ofList_toList (s := name), hs]; rfl
  | cons c r =>
    have hc : ¬ c = '\\' := by
      rintro rfl
      exact hname (by rw [hs]; rfl)
    rw [List.dropWhile_cons_of_neg (by simpa using hc), ← hs, String.ofList_toList]

theorem Path.space_eq (path : Path) : (String.join (path.front.map (· ++ "\\")) = "" ∨
    ∃ t, String.join (path.front.map (· ++ "\\")) = t ++ "\\") := by
  cases path.front using List.reverseRecOn with
  | nil => exact Or.inl rfl
  | append_singleton front word =>
    refine Or.inr ⟨String.join (front.map (· ++ "\\")) ++ word, ?_⟩
    simp [String.append_assoc]

/-- A name starts with a word. -/
theorem Path.head_text {path : Path} (h : ∀ word ∈ path.front ++ [path.last], Token.IsWord word) :
    ∃ c, path.text.toList.head? = some c ∧ c ≠ '\\' := by
  obtain ⟨front, last⟩ := path
  have hfirst {word : String} (rest : String) (hword : Token.IsWord word) :
      ∃ c, (word ++ rest).toList.head? = some c ∧ c ≠ '\\' := by
    obtain ⟨hne, hchars⟩ := isWord_iff hword
    obtain ⟨c, r, hc⟩ := List.exists_cons_of_ne_nil hne
    refine ⟨c, ?_, hchars c (hc ▸ List.mem_cons_self)⟩
    rw [String.toList_append, hc]
    rfl
  cases front with
  | nil =>
    obtain ⟨c, hc, hne⟩ := hfirst "" (h last (by simp))
    exact ⟨c, by simpa [Path.text] using hc, hne⟩
  | cons word front =>
    obtain ⟨c, hc, hne⟩ := hfirst ("\\" ++ (String.join (front.map (· ++ "\\")) ++ last))
      (h word (by simp))
    refine ⟨c, ?_, hne⟩
    rw [← hc]
    simp [Path.text, String.append_assoc]

/-! ### Reading entries and clauses -/

theorem Spells.append {a b : List Mark} (h : Spells s (a ++ b)) :
    ∃ s₁ s₂, s = s₁ ++ s₂ ∧ Spells s₁ a ∧ Spells s₂ b := by
  induction a generalizing s with
  | nil => exact ⟨[], s, rfl, .nil, h⟩
  | cons m a ih =>
    obtain ⟨x, _, hx, hrest, rfl⟩ := List.forall₂_cons_right_iff.mp h
    obtain ⟨s₁, s₂, rfl, h₁, h₂⟩ := ih hrest
    exact ⟨x :: s₁, s₂, rfl, .cons hx h₁, h₂⟩

theorem Spells.singleton {m : Mark} (h : Spells s [m]) : ∃ x, s = [x] ∧ m.Spells x := by
  obtain ⟨x, _, hx, hnil, rfl⟩ := List.forall₂_cons_right_iff.mp h
  exact ⟨x, by rw [List.forall₂_nil_right_iff.mp hnil], hx⟩

variable {found : ImportMap} {group name space leading : String} {alias? : Option String}
  {skipped : Bool} {path : Path}

theorem readFrom_alias (h : Spells s (aliasMarks alias?)) :
    readFrom ⟨found, group, name, none, false, skipped⟩ (s ++ r) =
      readFrom ⟨found, group, name, alias?, false, skipped⟩ r := by
  cases alias? with
  | none => rw [List.forall₂_nil_right_iff.mp h, List.nil_append]
  | some word =>
    obtain ⟨x, _, hx, hrest, rfl⟩ := List.forall₂_cons_right_iff.mp h
    obtain ⟨y, rfl, hy⟩ := Spells.singleton hrest
    rw [List.cons_append, List.singleton_append,
      readFrom_as rfl (Lexeme.not_isTerminator_of_isKeyword hx) hx, hy.2]

/-- A space that names are put in: none, or a name with a separator behind it. -/
def IsSpace (space : String) : Prop :=
  space = "" ∨ ∃ path : Path, (∀ word ∈ path.front ++ [path.last], Token.IsWord word) ∧
    space = path.text ++ "\\"

/-- A name in a space binds its last segment, unless it has an alias. -/
theorem finish_path (hpath : ∀ word ∈ path.front ++ [path.last], Token.IsWord word)
    (hspace : IsSpace space) (hleading : ∀ c ∈ leading.toList, c = '\\') (hname : name ≠ "")
    (hfull : group ++ name = leading ++ (space ++ path.text)) :
    Progress.finish ⟨found, group, name, alias?, false, false⟩ =
      found ++ [path.binding space alias?] := by
  have hhead : (space ++ path.text).toList.head? ≠ some '\\' := by
    obtain ⟨c, hc, hne⟩ := path.head_text hpath
    rcases hspace with rfl | ⟨front, hfront, rfl⟩
    · rw [String.empty_append, hc]
      simpa using hne
    · obtain ⟨c, hc, hne⟩ := front.head_text hfront
      rw [String.append_assoc, String.toList_append, List.head?_append, hc]
      simpa using hne
  have hlast : lastSegment (space ++ path.text) = path.last := by
    unfold Path.text
    rw [← String.append_assoc]
    refine lastSegment_append ?_ (hpath _ (by simp))
    rcases path.space_eq with heq | ⟨t, heq⟩
    · rw [heq, String.append_empty]
      exact hspace.imp id fun ⟨front, _, hfront⟩ => ⟨front.text, hfront⟩
    · exact Or.inr ⟨space ++ t, by rw [heq, String.append_assoc]⟩
  unfold Progress.finish
  rw [if_neg (by simpa using hname), hfull, dropLeading_append hleading hhead]
  dsimp only
  rw [hlast]
  rfl

/-- The state behind an entry of a group. -/
def Entry.progress (found : ImportMap) (group : String) (e : Entry) : Progress :=
  ⟨found, group, e.path.text, e.alias?, false, e.kind != .ofClass⟩

/-- In a group the keyword of a function or constant leaves the entry out. -/
theorem readFrom_kind {kind : Kind} (h : Spells s kind.marks) (hgroup : group ≠ "") :
    readFrom ⟨found, group, "", none, false, false⟩ (s ++ r) =
      readFrom ⟨found, group, "", none, false, kind != .ofClass⟩ r := by
  have hskips {x : Lexeme} {word : String} (hword : word = "function" ∨ word = "const") (hx : x.isKeyword word) :
      readFrom ⟨found, group, "", none, false, false⟩ (x :: r) =
        readFrom ⟨found, group, "", none, false, true⟩ r := by
    have has : x.isKeyword "as" = false := by
      rcases hword with rfl | rfl <;> exact Lexeme.not_isKeyword_of_isKeyword hx (by decide)
    have hkind := Lexeme.kind_of_isKeyword hx
    have hkey : (x.isKeyword "function" || x.isKeyword "const") = true := by
      rcases hword with rfl | rfl <;> simp [hx]
    rw [readFrom_cons rfl (Lexeme.not_isTerminator_of_isKeyword hx) has]
    unfold Progress.next
    simp [not_is_of_kind (by rw [hkind]; decide), hgroup, hkey]
  cases kind with
  | ofClass =>
    rw [List.forall₂_nil_right_iff.mp h]
    rfl
  | ofFunction =>
    obtain ⟨x, rfl, hx⟩ := Spells.singleton h
    exact hskips (Or.inl rfl) hx
  | ofConstant =>
    obtain ⟨x, rfl, hx⟩ := Spells.singleton h
    exact hskips (Or.inr rfl) hx

theorem readFrom_entry {e : Entry} (found : ImportMap) (h : Spells s e.marks) (hspelled : Token.Spelled ts)
    (hs : ∀ x ∈ s, x.toToken ∈ ts) (hgroup : group ≠ "") :
    readFrom ⟨found, group, "", none, false, false⟩ (s ++ r) = readFrom (e.progress found group) r ∧
      ∀ word ∈ e.path.front ++ [e.path.last], Token.IsWord word := by
  obtain ⟨_, as, rfl, h, has⟩ := Spells.append h
  obtain ⟨kind, names, rfl, hkind, hnames⟩ := Spells.append h
  obtain ⟨hkinds, htext, hwords⟩ := spells_path hnames hspelled fun x hx => hs x (by simp [hx])
  refine ⟨?_, hwords⟩
  rw [List.append_assoc, List.append_assoc, readFrom_kind hkind hgroup, readFrom_name hkinds rfl,
    readFrom_alias has, htext, String.empty_append]
  rfl

/-- An entry binds its name in the space of its group. -/
theorem finish_entry {e : Entry} (hwords : ∀ word ∈ e.path.front ++ [e.path.last], Token.IsWord word)
    (hspace : IsSpace space) (hleading : ∀ c ∈ leading.toList, c = '\\') :
    (e.progress found (leading ++ space)).finish = found ++ e.bindings space := by
  unfold Entry.progress Entry.bindings
  cases e.kind with
  | ofClass =>
    obtain ⟨c, hc, _⟩ := e.path.head_text hwords
    have hname : e.path.text ≠ "" := by
      intro hempty
      rw [hempty] at hc
      contradiction
    exact finish_path hwords hspace hleading hname (String.append_assoc ..)
  | ofFunction => exact (List.append_nil found).symm
  | ofConstant => exact (List.append_nil found).symm

theorem finish_of_empty (h : p.name = "") : p.finish = p.found := by
  unfold Progress.finish
  rw [if_pos (by simp [h])]

/-- A comma in front of the closing brace adds no entry. -/
theorem readFrom_end {comma : Bool} (h : Spells s (commaMarks comma ++ [.closing]))
    (halias : p.aliasNext = false) :
    readFrom p (s ++ r) = readFrom ⟨p.finish, "", "", none, false, false⟩ r := by
  cases comma with
  | false =>
    obtain ⟨x, rfl, hx⟩ := Spells.singleton h
    exact readFrom_closing halias hx
  | true =>
    obtain ⟨x, _, hx, hrest, rfl⟩ := List.forall₂_cons_right_iff.mp h
    obtain ⟨y, rfl, hy⟩ := Spells.singleton hrest
    rw [List.cons_append, readFrom_comma halias hx, List.singleton_append, readFrom_closing rfl hy,
      finish_of_empty rfl]

/-- The entries of a group, up to its closing brace. -/
theorem readFrom_entries {entries : List Entry} {comma : Bool} (found : ImportMap)
    (h : Spells s ([Mark.comma].intercalate (entries.map (·.marks)) ++
      (commaMarks comma ++ [.closing]))) (hspelled : Token.Spelled ts)
    (hs : ∀ x ∈ s, x.toToken ∈ ts) (hgroup : group ≠ "") : ∃ found',
    readFrom ⟨found, group, "", none, false, false⟩ (s ++ r) =
      readFrom ⟨found', "", "", none, false, false⟩ r ∧
    ∀ leading space, group = leading ++ space → IsSpace space → (∀ c ∈ leading.toList, c = '\\') →
      found' = found ++ entries.flatMap (·.bindings space) := by
  induction entries generalizing s found with
  | nil =>
    rw [List.map_nil, List.intercalate_nil, List.nil_append] at h
    refine ⟨found, ?_, fun _ _ _ _ _ => (List.append_nil found).symm⟩
    rw [readFrom_end h rfl, finish_of_empty rfl]
  | cons e rest ih =>
    cases rest with
    | nil =>
      rw [List.map_singleton, List.intercalate_singleton] at h
      obtain ⟨entry, ends, rfl, hentry, hends⟩ := Spells.append h
      obtain ⟨hread, hwords⟩ := readFrom_entry found (r := ends ++ r) hentry hspelled
        (fun x hx => hs x (by simp [hx])) hgroup
      refine ⟨(e.progress found group).finish, ?_, fun leading space hsplit hspace hleading => ?_⟩
      · rw [List.append_assoc, hread, readFrom_end hends rfl]
      · rw [hsplit, finish_entry hwords hspace hleading, List.flatMap_singleton]
    | cons next rest =>
      rw [List.map_cons, List.map_cons, List.intercalate_cons_cons, List.append_assoc,
        List.append_assoc] at h
      obtain ⟨entry, _, rfl, hentry, hbehind⟩ := Spells.append h
      obtain ⟨x, later, hx, hlater, rfl⟩ := List.forall₂_cons_right_iff.mp hbehind
      obtain ⟨hread, hwords⟩ := readFrom_entry found (r := x :: (later ++ r)) hentry hspelled
        (fun x hx => hs x (by simp [hx])) hgroup
      obtain ⟨found', hrest, hfound⟩ := ih (e.progress found group).finish hlater
        fun z hz => hs z (by simp [hz])
      refine ⟨found', ?_, fun leading space hsplit hspace hleading => ?_⟩
      · rw [List.append_assoc, List.cons_append, hread, readFrom_comma rfl hx]
        exact hrest
      · rw [hfound leading space hsplit hspace hleading, hsplit, finish_entry hwords hspace hleading]
        simp only [List.flatMap_cons, List.append_assoc]

theorem spells_leading {leading : Bool} (h : Spells s (leadingMarks leading))
    (hspelled : Token.Spelled ts) (hs : ∀ x ∈ s, x.toToken ∈ ts) :
    (∀ x ∈ s, x.kind = .name ∨ x.kind = .nsSeparator) ∧
      ∀ c ∈ (String.join (s.map (·.text))).toList, c = '\\' := by
  cases leading with
  | false =>
    rw [List.forall₂_nil_right_iff.mp h]
    exact ⟨nofun, nofun⟩
  | true =>
    obtain ⟨x, rfl, hx⟩ := Spells.singleton h
    have hx : x.kind = .nsSeparator := hx
    refine ⟨by simpa using Or.inr hx, ?_⟩
    simp [hspelled.separator _ (hs x (by simp)) hx]

/-- A clause; a keyword in front of the first one is read as a part of its name. -/
theorem readFrom_clause {c : Clause} (found : ImportMap) (name : String) (h : Spells s c.marks) (hspelled : Token.Spelled ts)
    (hs : ∀ x ∈ s, x.toToken ∈ ts) : ∃ p' : Progress,
    readFrom ⟨found, "", name, none, false, false⟩ (s ++ r) = readFrom p' r ∧
      p'.aliasNext = false ∧ p'.group = "" ∧ (name = "" → p'.finish = found ++ c.bindings) := by
  cases c with
  | single leading path alias? =>
    obtain ⟨_, as, rfl, h, has⟩ := Spells.append h
    obtain ⟨front, names, rfl, hfront, hnames⟩ := Spells.append h
    obtain ⟨hseparators, hleading⟩ := spells_leading hfront hspelled fun x hx => hs x (by simp [hx])
    obtain ⟨hkinds, htext, hwords⟩ := spells_path hnames hspelled fun x hx => hs x (by simp [hx])
    refine ⟨⟨found, "", name ++ String.join (front.map (·.text)) ++ path.text, alias?, false, false⟩,
      ?_, rfl, rfl, ?_⟩
    · rw [List.append_assoc, List.append_assoc, readFrom_name hseparators rfl,
        readFrom_name hkinds rfl, readFrom_alias has, htext]
    · rintro rfl
      obtain ⟨c, hc, _⟩ := path.head_text hwords
      refine finish_path hwords (Or.inl rfl) hleading ?_ (by simp)
      intro hempty
      have hnil := String.append_eq_empty_iff.mp hempty
      rw [hnil.2] at hc
      contradiction
  | group leading path entries comma =>
    have h : Spells s (leadingMarks leading ++ (path.marks ++ ([.separator, .opening] ++
        ([Mark.comma].intercalate (entries.map (·.marks)) ++ (commaMarks comma ++ [.closing]))))) := by
      simpa [Clause.marks] using h
    obtain ⟨front, _, rfl, hfront, h⟩ := Spells.append h
    obtain ⟨names, _, rfl, hnames, h⟩ := Spells.append h
    obtain ⟨y, _, hy, hbehind, rfl⟩ := List.forall₂_cons_right_iff.mp h
    obtain ⟨z, rest, hz, hrest, rfl⟩ := List.forall₂_cons_right_iff.mp hbehind
    have hy : y.kind = .nsSeparator := hy
    obtain ⟨hseparators, hleading⟩ := spells_leading hfront hspelled fun x hx => hs x (by simp [hx])
    obtain ⟨hkinds, htext, hwords⟩ := spells_path hnames hspelled fun x hx => hs x (by simp [hx])
    have hsep : y.text = "\\" := hspelled.separator _ (hs y (by simp)) hy
    obtain ⟨found', hread, hfound⟩ := readFrom_entries found (r := r) hrest hspelled
      (fun x hx => hs x (by simp [hx]))
      (show name ++ String.join (front.map (·.text)) ++ path.text ++ "\\" ≠ "" by simp)
    refine ⟨⟨found', "", "", none, false, false⟩, ?_, rfl, rfl, ?_⟩
    · have hy' : readFrom ⟨found, "", name ++ String.join (front.map (·.text)) ++ path.text, none, false,
          false⟩ ([y] ++ z :: (rest ++ r)) = readFrom ⟨found, "",
            name ++ String.join (front.map (·.text)) ++ path.text ++ "\\", none, false, false⟩
              (z :: (rest ++ r)) := by
        rw [readFrom_name (by simpa using Or.inr hy) rfl]
        simp [hsep]
      rw [List.append_assoc, List.append_assoc, readFrom_name hseparators rfl,
        readFrom_name hkinds rfl, htext]
      refine hy'.trans ?_
      rw [readFrom_opening rfl hz]
      exact hread
    · rintro rfl
      rw [finish_of_empty rfl]
      refine hfound (String.join (front.map (·.text))) (path.text ++ "\\") ?_
        (Or.inr ⟨path, hwords, rfl⟩) hleading
      simp [String.append_assoc]

/-- The clauses up to the terminator. -/
theorem readFrom_clauses {c : Clause} {more : List Clause} (found : ImportMap) (name : String)
    (h : Spells s ([Mark.comma].intercalate ((c :: more).map (·.marks))))
    (hspelled : Token.Spelled ts) (hs : ∀ x ∈ s, x.toToken ∈ ts) (hy : y.isTerminator) : ∃ found',
    readFrom ⟨found, "", name, none, false, false⟩ (s ++ y :: r) = (found', y :: r) ∧
      (name = "" → found' = found ++ (c :: more).flatMap (·.bindings)) := by
  induction more generalizing s found name c with
  | nil =>
    rw [List.map_singleton, List.intercalate_singleton] at h
    obtain ⟨p', hread, halias, _, hfinish⟩ := readFrom_clause found name
      (r := y :: r) h hspelled hs
    refine ⟨p'.finish, ?_, fun hname => ?_⟩
    · rw [hread, readFrom_terminator halias hy]
    · rw [hfinish hname, List.flatMap_singleton]
  | cons next more ih =>
    rw [List.map_cons, List.map_cons, List.intercalate_cons_cons, List.append_assoc] at h
    obtain ⟨clause, _, rfl, hclause, hbehind⟩ := Spells.append h
    obtain ⟨x, later, hx, hlater, rfl⟩ := List.forall₂_cons_right_iff.mp hbehind
    obtain ⟨p', hread, halias, hgroup, hfinish⟩ := readFrom_clause found name
      (r := x :: (later ++ y :: r)) hclause hspelled fun z hz => hs z (by simp [hz])
    obtain ⟨found', hrest, hfound⟩ := ih p'.finish "" hlater fun z hz =>
      hs z (by simp [hz])
    refine ⟨found', ?_, fun hname => ?_⟩
    · rw [List.append_assoc, List.cons_append, hread, readFrom_comma halias hx, hgroup]
      exact hrest
    · rw [hfound rfl, hfinish hname]
      simp only [List.flatMap_cons, List.append_assoc]

/-- A clause starts with a name. -/
theorem head_of_spells {c : Clause} {rest : List Mark} (h : Spells s (c.marks ++ rest))
    (hspelled : Token.Spelled ts) (hs : ∀ x ∈ s, x.toToken ∈ ts) :
    ∃ x r, s = x :: r ∧ (x.kind = .name ∨ x.kind = .nsSeparator) := by
  obtain ⟨leading, path, rest, h⟩ : ∃ leading path rest,
      Spells s (leadingMarks leading ++ (Path.marks path ++ rest)) := by
    cases c with
    | single leading path alias? =>
      exact ⟨leading, path, aliasMarks alias? ++ rest, by simpa [Clause.marks] using h⟩
    | group leading path entries comma =>
      exact ⟨leading, path, _, by simpa only [Clause.marks, List.append_assoc] using h⟩
  obtain ⟨front, _, rfl, hfront, hbehind⟩ := Spells.append h
  obtain ⟨names, _, rfl, hnames, _⟩ := Spells.append hbehind
  have hkinds := (spells_leading hfront hspelled fun x hx => hs x (by simp [hx])).1
  have hkinds' := (spells_path hnames hspelled fun x hx => hs x (by simp [hx])).1
  cases front with
  | cons x front => exact ⟨x, _, rfl, hkinds x List.mem_cons_self⟩
  | nil =>
    cases names with
    | cons x names => exact ⟨x, _, rfl, hkinds' x List.mem_cons_self⟩
    | nil =>
      unfold Path.marks at hnames
      simpa using List.forall₂_nil_left_iff.mp hnames

/-- Reading a statement finds what it binds, and stops at its terminator. -/
theorem read_of_spells {u : Statement} (h : Spells s u.marks) (hspelled : Token.Spelled ts)
    (hs : ∀ x ∈ s, x.toToken ∈ ts) (hy : y.isTerminator) :
    read (s ++ y :: r) = (u.bindings, y :: r) := by
  obtain ⟨key, clauses, rfl, hkey, hclauses⟩ := Spells.append h
  have hs' (x : Lexeme) (hx : x ∈ clauses) : x.toToken ∈ ts := hs x (by simp [hx])
  -- a keyword is read as a part of the first name, and then all is left out
  have hskips {x : Lexeme} {word : String} (hword : word = "function" ∨ word = "const")
      (hx : x.isKeyword word) (hkind : u.kind ≠ .ofClass) :
      read (x :: (clauses ++ y :: r)) = (u.bindings, y :: r) := by
    have has : x.isKeyword "as" = false := by
      rcases hword with rfl | rfl <;> exact Lexeme.not_isKeyword_of_isKeyword hx (by decide)
    have hkey : (x.isKeyword "function" || x.isKeyword "const") = true := by
      rcases hword with rfl | rfl <;> simp [hx]
    have hkeyword := Lexeme.kind_of_isKeyword hx
    have hnext : Progress.start.next x = ⟨[], "", x.text, none, false, false⟩ := by
      unfold Progress.next Progress.start Lexeme.isNamePart Token.isIdentifier
      simp [not_is_of_kind (by rw [hkeyword]; decide), hkeyword]
    obtain ⟨found, hread, _⟩ := readFrom_clauses [] x.text (r := r) hclauses
      hspelled hs' hy
    unfold read Statement.bindings
    rw [readFrom_cons rfl (Lexeme.not_isTerminator_of_isKeyword hx) has, hnext, hread, if_neg hkind]
    simp only [List.head?_cons, Option.any_some, hkey, if_true]
  cases hkind : u.kind with
  | ofClass =>
    rw [hkind] at hkey
    obtain rfl : key = [] := List.forall₂_nil_right_iff.mp hkey
    obtain ⟨rest, hrest⟩ : ∃ rest, [Mark.comma].intercalate ((u.first :: u.more).map (·.marks)) =
        u.first.marks ++ rest := by
      cases u.more with
      | nil => exact ⟨[], by simp⟩
      | cons next more => exact ⟨_, by
          rw [List.map_cons, List.map_cons, List.intercalate_cons_cons, List.append_assoc]⟩
    obtain ⟨x, clauses, rfl, hx⟩ := head_of_spells (hrest ▸ hclauses) hspelled hs'
    obtain ⟨found, hread, hfound⟩ := readFrom_clauses [] "" (r := r) hclauses
      hspelled hs' hy
    have hkey {word : String} : x.isKeyword word = false := by
      refine not_isKeyword_of_kind ?_
      rcases hx with hx | hx <;> rw [hx] <;> decide
    have hstart : Progress.start = ⟨[], "", "", none, false, false⟩ := rfl
    unfold read Statement.bindings
    rw [List.nil_append, hstart, hread, hfound rfl, if_pos hkind]
    simp only [List.cons_append, List.head?_cons, Option.any_some, hkey, Bool.or_self,
      Bool.false_eq_true, if_false, List.nil_append]
  | ofFunction =>
    rw [hkind] at hkey
    obtain ⟨x, rfl, hx⟩ := Spells.singleton hkey
    exact hskips (Or.inl rfl) hx (by rw [hkind]; nofun)
  | ofConstant =>
    rw [hkind] at hkey
    obtain ⟨x, rfl, hx⟩ := Spells.singleton hkey
    exact hskips (Or.inr rfl) hx (by rw [hkind]; nofun)

end PhpLint.Import
