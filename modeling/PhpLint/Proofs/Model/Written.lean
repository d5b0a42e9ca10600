import PhpLint.Proofs.Model.State

/-!
How names and class headers are written. The readings of the pass find exactly what is written; the
arguments of a class without a name end with the bracket that pairs with their first.
-/
namespace PhpLint.Lexeme

variable {s rest : List Lexeme} {x y : Lexeme}

/-! ### Names -/

/-- A name at the front of some lexemes: a first part, and all parts that touch the one before. -/
def Written (s : List Lexeme) (name : String) (rest : List Lexeme) : Prop :=
  ∃ x parts, s = x :: parts ++ rest ∧ x.isNamePart ∧ (∀ y ∈ parts, y.joined ∧ y.isNamePart) ∧
    (∀ y ∈ rest.head?, ¬ (y.joined ∧ y.isNamePart)) ∧
    name = String.join ((x :: parts).map (·.text))

/-- Names with commas between them at the front of some lexemes; a comma may follow the last. -/
inductive WrittenList : List Lexeme → List String → List Lexeme → Prop where
  | nil {s : List Lexeme} (hend : ∀ x ∈ s.head?, ¬ x.isNamePart) : WrittenList s [] s
  | last {s rest : List Lexeme} {name : String} (hname : Written s name rest)
    (hend : ∀ x ∈ rest.head?, ¬ x.is ",") : WrittenList s [name] rest
  | more {s r rest : List Lexeme} {name : String} {names : List String} {comma : Lexeme}
    (hname : Written s name (comma :: r)) (hcomma : comma.is ",")
    (hrest : WrittenList r names rest) : WrittenList s (name :: names) rest

/-- A keyword and the names behind it at the front of some lexemes, or nothing. -/
inductive Clause (keyword : String) : List Lexeme → List String → List Lexeme → Prop where
  | absent {s : List Lexeme} (hend : ∀ x ∈ s.head?, ¬ x.isKeyword keyword) : Clause keyword s [] s
  | names {x : Lexeme} {r rest : List Lexeme} {names : List String} (hkey : x.isKeyword keyword)
    (hnames : WrittenList r names rest) : Clause keyword (x :: r) names rest

/--
What stands between the keyword of a class and its clauses: a name, perhaps with the type of an
enumeration, or the arguments of a class without a name.
-/
inductive Heading (paired : Nat → Nat → Prop) : List Lexeme → Option Nat → List Lexeme → Prop where
  | plain {x : Lexeme} {r : List Lexeme} (hx : x.isIdentifier)
    (hend : ∀ colon type after, r = colon :: type :: after → ¬ colon.is ":") :
    Heading paired (x :: r) (some x.index) r
  | typed {x colon type : Lexeme} {r : List Lexeme} (hx : x.isIdentifier) (hcolon : colon.is ":") :
    Heading paired (x :: colon :: type :: r) (some x.index) r
  | anonymous {s : List Lexeme} (hend : ∀ x ∈ s.head?, ¬ x.is "(") : Heading paired s none s
  | arguments {x y : Lexeme} {inner r : List Lexeme} (hx : x.is "(")
    (hpair : paired x.index y.index) : Heading paired (x :: inner ++ y :: r) none r

/-- The header of a class behind its keyword: it goes up to the brace at `bodyStarts`. -/
def Header (paired : Nat → Nat → Prop) (s : List Lexeme) (nameIndex : Option Nat)
    (parents interfaces : List String) (bodyStarts : Nat) : Prop :=
  ∃ s₁ s₂ y r, Heading paired s nameIndex s₁ ∧ Clause "extends" s₁ parents s₂ ∧
    Clause "implements" s₂ interfaces (y :: r) ∧ y.is "\x7b" ∧ y.index = bodyStarts

/-! ### Readings find what is written -/

theorem nameRest_parts (s : List Lexeme) : ∃ parts, s = parts ++ (nameRest s).2 ∧
    (∀ y ∈ parts, y.joined ∧ y.isNamePart) ∧
    (∀ y ∈ (nameRest s).2.head?, ¬ (y.joined ∧ y.isNamePart)) ∧
    (nameRest s).1 = String.join (parts.map (·.text)) := by
  induction s with
  | nil => exact ⟨[], rfl, nofun, nofun, rfl⟩
  | cons x r ih =>
    obtain ⟨parts, hsplit, hparts, hend, hname⟩ := ih
    rw [nameRest]
    by_cases hx : x.joined && x.isNamePart
    · rw [if_pos hx]
      refine ⟨x :: parts, ?_, ?_, hend, ?_⟩
      · rw [List.cons_append, ← hsplit]
      · intro y hy
        rcases List.mem_cons.mp hy with rfl | hy
        · simpa using hx
        · exact hparts y hy
      · rw [List.map_cons, String.join_cons, ← hname]
    · rw [if_neg hx]
      refine ⟨[], rfl, nofun, ?_, rfl⟩
      intro y hy
      cases Option.some.inj hy
      simpa using hx

theorem written_readName (hx : x.isNamePart) (r : List Lexeme) :
    Written (x :: r) (readName (x :: r)).1 (readName (x :: r)).2 := by
  obtain ⟨parts, hsplit, hparts, hend, hname⟩ := nameRest_parts r
  rw [readName, if_pos hx]
  refine ⟨x, parts, ?_, hx, hparts, hend, ?_⟩
  · rw [List.cons_append, ← hsplit]
  · rw [List.map_cons, String.join_cons, ← hname]

theorem readName_parts (s : List Lexeme) :
    ∃ parts, s = parts ++ (readName s).2 ∧ ∀ z ∈ parts, z.isNamePart := by
  cases s with
  | nil => exact ⟨[], rfl, nofun⟩
  | cons x r =>
    rw [readName]
    split
    · rename_i hx
      obtain ⟨parts, hsplit, hparts, _⟩ := nameRest_parts r
      refine ⟨x :: parts, by rw [List.cons_append, ← hsplit], ?_⟩
      exact List.forall_mem_cons.mpr ⟨hx, fun z hz => (hparts z hz).2⟩
    · exact ⟨[], rfl, nofun⟩

/-- A name has text. -/
theorem isEmpty_readName (hne : ∀ x ∈ s, x.text ≠ "") :
    (readName s).1.isEmpty ↔ ∀ x ∈ s.head?, ¬ x.isNamePart := by
  cases s with
  | nil => exact ⟨fun _ => nofun, fun _ => rfl⟩
  | cons x r =>
    rw [readName]
    by_cases hx : x.isNamePart
    · rw [if_pos hx]
      have htext := hne x List.mem_cons_self
      simp [hx, String.append_eq_empty_iff, htext]
    · rw [if_neg hx]
      simp [hx]

theorem writtenList_readNames {s : List Lexeme} (hne : ∀ x ∈ s, x.text ≠ "") :
    WrittenList s (readNames s).1 (readNames s).2 := by
  rw [readNames_eq]
  by_cases hempty : (readName s).1.isEmpty
  · rw [if_pos hempty]
    exact .nil ((isEmpty_readName hne).mp hempty)
  · rw [if_neg hempty]
    cases s with
    | nil => exact absurd rfl hempty
    | cons x r =>
      have hx : x.isNamePart := by
        rw [isEmpty_readName hne] at hempty
        simpa using hempty
      have hwritten := written_readName hx r
      cases hafter : (readName (x :: r)).2 with
      | nil =>
        rw [hafter] at hwritten
        exact .last hwritten nofun
      | cons comma r' =>
        rw [hafter] at hwritten
        have hsuffix := readName_suffix (x :: r)
        rw [hafter] at hsuffix
        dsimp only
        by_cases hcomma : comma.is ","
        · rw [if_pos hcomma]
          have hlt : r'.length < (x :: r).length := hsuffix.length_le
          refine .more hwritten hcomma (writtenList_readNames fun y hy => hne y ?_)
          exact hsuffix.mem (List.mem_cons_of_mem comma hy)
        · rw [if_neg hcomma]
          refine .last hwritten ?_
          intro y hy
          cases Option.some.inj hy
          exact hcomma
termination_by s.length

/-! ### Brackets of a class header -/

theorem not_isOpenBracket_of_isNamePart (h : x.isNamePart) : x.isOpenBracket = false := by
  unfold isNamePart at h
  apply not_isOpenBracket_of_kind
  rcases Bool.or_eq_true_iff.mp h with hword | hkind
  · exact not_punct_of_isIdentifier hword
  · rw [beq_iff_eq.mp hkind]
    decide

/-- A list of names consists of parts of names and of commas. -/
theorem WrittenList.parts {names : List String} (h : WrittenList s names rest) :
    ∃ read, s = read ++ rest ∧ ∀ z ∈ read, z.isNamePart ∨ z.is "," := by
  have hname {s rest : List Lexeme} {name : String} (h : Written s name rest) :
      ∃ read, s = read ++ rest ∧ ∀ z ∈ read, z.isNamePart ∨ z.is "," := by
    obtain ⟨x, parts, rfl, hx, hparts, _⟩ := h
    refine ⟨x :: parts, rfl, fun z hz => Or.inl ?_⟩
    rcases List.mem_cons.mp hz with rfl | hz
    · exact hx
    · exact (hparts z hz).2
  induction h with
  | nil => exact ⟨[], rfl, nofun⟩
  | last hlast => exact hname hlast
  | @more _ _ _ _ _ comma hfirst hcomma _ ih =>
    obtain ⟨first, heq, hparts⟩ := hname hfirst
    obtain ⟨later, rfl, hlater⟩ := ih
    refine ⟨first ++ comma :: later, by rw [heq]; simp, fun z hz => ?_⟩
    rcases List.mem_append.mp hz with hz | hz
    · exact hparts z hz
    · rcases List.mem_cons.mp hz with rfl | hz
      · exact Or.inr hcomma
      · exact hlater z hz

theorem not_bracket_of_part (h : x.isNamePart ∨ x.is ",") :
    x.isOpenBracket = false ∧ x.isCloseBracket = false := by
  rcases h with h | h
  · refine ⟨not_isOpenBracket_of_isNamePart h, not_isCloseBracket_of_kind ?_⟩
    unfold isNamePart at h
    rcases Bool.or_eq_true_iff.mp h with hword | hkind
    · exact not_punct_of_isIdentifier hword
    · rw [beq_iff_eq.mp hkind]
      decide
  · exact ⟨not_isOpenBracket_of_is h (by decide), not_isCloseBracket_of_is h (by decide)⟩

theorem WrittenList.not_isOpenBracket {names : List String} (h : WrittenList s names rest) :
    ∃ read, s = read ++ rest ∧ ∀ z ∈ read, z.isOpenBracket = false := by
  obtain ⟨read, rfl, hread⟩ := h.parts
  exact ⟨read, rfl, fun z hz => (not_bracket_of_part (hread z hz)).1⟩

theorem Clause.not_isOpenBracket {keyword : String} {names : List String}
    (h : Clause keyword s names rest) :
    ∃ read, s = read ++ rest ∧ ∀ z ∈ read, z.isOpenBracket = false := by
  cases h with
  | absent => exact ⟨[], rfl, nofun⟩
  | @names x _ _ _ hkey hnames =>
    obtain ⟨read, rfl, hread⟩ := hnames.not_isOpenBracket
    refine ⟨x :: read, rfl, fun z hz => ?_⟩
    rcases List.mem_cons.mp hz with rfl | hz
    · apply not_isOpenBracket_of_kind
      unfold Token.isKeyword at hkey
      rw [beq_iff_eq.mp (Bool.and_eq_true_iff.mp hkey).1]
      decide
    · exact hread z hz

/--
A bracket that opens in the header of a class belongs to the arguments of a class without a name,
or stands for the type of an enumeration.
-/
theorem Heading.open_cases {paired : Nat → Nat → Prop} {nameIndex : Option Nat}
    (h : Heading paired s nameIndex rest) (hs : s.Pairwise (·.index < ·.index)) :
    ∃ read, s = read ++ rest ∧ ∀ z ∈ read, z.isOpenBracket →
      (∃ o ∈ s.head?, o.is "(" ∧
        ∃ c ∈ read, paired o.index c.index ∧ o.index ≤ z.index ∧ z.index ≤ c.index) ∨
        ∃ name colon after, s = name :: colon :: z :: after ∧ colon.is ":" := by
  have hword {x z : Lexeme} {p : Prop} (hx : x.isIdentifier) (hz : z ∈ [x])
      (hopen : z.isOpenBracket) : p := by
    rw [List.mem_singleton.mp hz, not_isOpenBracket_of_kind (not_punct_of_isIdentifier hx)] at hopen
    contradiction
  cases h with
  | @plain x _ hx => exact ⟨[x], rfl, fun z hz hopen => hword hx hz hopen⟩
  | @typed x colon type r hx hcolon =>
    refine ⟨[x, colon, type], rfl, fun z hz hopen => ?_⟩
    rcases List.mem_cons.mp hz with rfl | hz
    · exact hword hx (List.mem_singleton_self _) hopen
    · rcases List.mem_cons.mp hz with rfl | hz
      · rw [not_isOpenBracket_of_is hcolon (by decide)] at hopen
        contradiction
      · rw [List.mem_singleton.mp hz]
        exact Or.inr ⟨x, colon, rest, rfl, hcolon⟩
  | anonymous => exact ⟨[], rfl, nofun⟩
  | @arguments x y inner _ hx hpair =>
    refine ⟨x :: inner ++ [y], by simp,
      fun z hz _ => Or.inl ⟨x, by simp, hx, y, by simp, hpair, ?_⟩⟩
    have hrising : (x :: inner ++ [y]).Pairwise (·.index < ·.index) := by
      refine hs.sublist ?_
      simp
    obtain ⟨hfront, _, hlast⟩ := List.pairwise_append.mp hrising
    rcases List.mem_append.mp hz with hz | hz
    · refine ⟨?_, Nat.le_of_lt (hlast z hz y List.mem_cons_self)⟩
      rcases List.mem_cons.mp hz with rfl | hz
      · exact Nat.le_refl _
      · exact Nat.le_of_lt ((List.pairwise_cons.mp hfront).1 z hz)
    · rw [List.mem_singleton.mp hz]
      exact ⟨Nat.le_of_lt (hlast x List.mem_cons_self y List.mem_cons_self), Nat.le_refl _⟩

theorem Header.open_cases {paired : Nat → Nat → Prop} {nameIndex : Option Nat}
    {parents interfaces : List String} {k : Nat}
    (h : Header paired s nameIndex parents interfaces k) (hs : s.Pairwise (·.index < ·.index)) :
    ∃ read y r, s = read ++ y :: r ∧ y.index = k ∧ y.is "\x7b" ∧ ∀ z ∈ read, z.isOpenBracket →
      (∃ o ∈ s.head?, o.is "(" ∧
        ∃ c ∈ read, paired o.index c.index ∧ o.index ≤ z.index ∧ z.index ≤ c.index) ∨
        ∃ name colon after, s = name :: colon :: z :: after ∧ colon.is ":" := by
  obtain ⟨s₁, s₂, y, r, hheading, hextends, himplements, hbrace, hindex⟩ := h
  obtain ⟨first, rfl, hfirst⟩ := hheading.open_cases hs
  obtain ⟨second, rfl, hsecond⟩ := hextends.not_isOpenBracket
  obtain ⟨third, rfl, hthird⟩ := himplements.not_isOpenBracket
  refine ⟨first ++ (second ++ third), y, r, by simp, hindex, hbrace, fun z hz hopen => ?_⟩
  rcases List.mem_append.mp hz with hz | hz
  · rcases hfirst z hz hopen with ⟨o, ho, hparen, c, hc, hbetween⟩ | htyped
    · exact Or.inl ⟨o, ho, hparen, c, List.mem_append_left _ hc, hbetween⟩
    · exact Or.inr htyped
  · rcases List.mem_append.mp hz with hz | hz
    · rw [hsecond z hz] at hopen
      contradiction
    · rw [hthird z hz] at hopen
      contradiction

/-- No header of a class starts with a colon. -/
theorem not_header_of_colon {paired : Nat → Nat → Prop} {nameIndex : Option Nat}
    {parents interfaces : List String} {k : Nat} (hx : x.is ":") :
    ¬ Header paired (x :: s) nameIndex parents interfaces k := by
  rintro ⟨s₁, s₂, y, r, hheading, hextends, himplements, hbrace, _⟩
  have hclause {keyword : String} {names : List String} {rest : List Lexeme}
      (h : Clause keyword (x :: s) names rest) : rest = x :: s := by
    cases h with
    | absent => rfl
    | names hkey =>
      have hword := not_isIdentifier_of_is hx
      unfold Token.isKeyword at hkey
      unfold Token.isIdentifier at hword
      rw [(Bool.and_eq_true_iff.mp hkey).1] at hword
      contradiction
  cases hheading with
  | plain hword | typed hword =>
    rw [not_isIdentifier_of_is hx] at hword
    contradiction
  | anonymous =>
    rw [hclause hextends] at himplements
    rw [(List.cons.inj (hclause himplements)).1] at hbrace
    exact absurd ((text_of_is hx).symm.trans (text_of_is hbrace)) (by decide)
  | arguments hparen => exact absurd ((text_of_is hx).symm.trans (text_of_is hparen)) (by decide)

end PhpLint.Lexeme

namespace PhpLint.Outline.Pass

open Lexeme (Clause Heading Header opened)

variable {ts : List Token} {found : List (Nat × Nat)} {before s rest : List Lexeme} {x : Lexeme}
  {p : Pass} {i : Nat}

theorem clause_of_namesAfter? {keyword : String} {names : List String}
    (hne : ∀ x ∈ s, x.text ≠ "") (h : namesAfter? keyword s = some (names, rest)) :
    Clause keyword s names rest := by
  unfold namesAfter? at h
  split at h
  · rename_i x r
    by_cases hx : x.isKeyword keyword
    · rw [if_pos hx] at h
      split at h
      · contradiction
      · have hwritten := Lexeme.writtenList_readNames fun y hy => hne y (List.mem_cons_of_mem x hy)
        rw [Option.some.inj h] at hwritten
        exact .names hx hwritten
    · rw [if_neg hx] at h
      cases h
      refine .absent fun y hy => ?_
      cases Option.some.inj hy
      exact hx
  · cases h
    exact .absent nofun

/-- Brackets that are closed on the way to a closing bracket were opened on the way. -/
theorem closing_opened {depth : Nat} {inside outside : List Token}
    (h : Lexeme.closing depth s = some rest) (hopened : opened before = inside ++ outside)
    (hdepth : inside.length = depth) : ∃ inner y r, rest = y :: r ∧ s = inner ++ y :: r ∧
      y.isCloseBracket ∧ opened (inner.reverse ++ before) = outside := by
  induction s generalizing depth before inside with
  | nil => contradiction
  | cons x s ih =>
    rw [Lexeme.closing_cons] at h
    by_cases hend : depth = 0 ∧ x.isCloseBracket
    · rw [if_pos hend] at h
      have hnil : inside = [] := List.eq_nil_of_length_eq_zero (hdepth.trans hend.1)
      rw [hnil] at hopened
      exact ⟨[], x, s, (Option.some.inj h).symm, rfl, hend.2, hopened⟩
    · rw [if_neg hend, ← hdepth] at h
      obtain ⟨inside', hinside, hlength⟩ := Lexeme.opened_cons_append (x := x) hopened
        fun hx => hend ⟨hdepth.symm.trans (List.length_eq_zero_iff.mpr hx.1), hx.2⟩
      obtain ⟨inner, y, r, hrest, hs, hclose, hout⟩ := ih h hinside hlength
      refine ⟨x :: inner, y, r, hrest, by rw [hs]; rfl, hclose, ?_⟩
      rw [List.reverse_cons, List.append_assoc]
      exact hout

/-- The bracket that closes the one just read is its partner. -/
theorem pair_of_afterClosing (ha : Accepted ts found)
    (hsplit : Lexeme.ofTokens false ts = before.reverse ++ x :: s) (hx : x.isOpenBracket)
    (h : Lexeme.afterClosing s = some rest) :
    ∃ inner y, s = inner ++ y :: rest ∧ (x.index, y.index) ∈ found := by
  obtain ⟨closed, hclosed, rfl⟩ := Option.map_eq_some_iff.mp h
  have hinside : opened (x :: before) = [] ++ opened (x :: before) := rfl
  obtain ⟨inner, y, r, rfl, rfl, hclose, hopened⟩ := closing_opened hclosed hinside rfl
  refine ⟨inner, y, rfl, ?_⟩
  have hsplit' : Lexeme.ofTokens false ts = (inner.reverse ++ x :: before).reverse ++ y :: r := by
    rw [hsplit]
    simp
  obtain ⟨o, stack, hstack, hpair⟩ := ha.closing hsplit' hclose
  rw [hopened, Lexeme.opened_of_open hx] at hstack
  rw [(List.cons.inj hstack).1]
  exact hpair

theorem heading_of_className? (ha : Accepted ts found)
    (hsplit : Lexeme.ofTokens false ts = before.reverse ++ x :: s) {anonymous : Bool}
    {nameIndex : Option Nat} {name : String}
    (h : p.className? anonymous s = some (nameIndex, name, rest)) :
    Heading (Bracket.Partners found) s nameIndex rest := by
  unfold className? at h
  split at h
  · contradiction
  · rename_i y r
    split at h
    · split at h
      · rename_i hparen
        obtain ⟨after, hafter, heq⟩ := Option.map_eq_some_iff.mp h
        cases heq
        have hsplit' : Lexeme.ofTokens false ts = (x :: before).reverse ++ y :: r := by
          rw [hsplit]
          simp
        have hopen := Lexeme.isOpenBracket_of_is ha.long
          (Accepted.mem hsplit' List.mem_cons_self).1 (Or.inl rfl) hparen
        obtain ⟨inner, z, rfl, hpair⟩ := pair_of_afterClosing ha hsplit' hopen hafter
        exact .arguments hparen (Or.inl hpair)
      · rename_i hparen
        cases h
        refine .anonymous fun z hz => ?_
        cases Option.some.inj hz
        exact hparen
    · split at h
      · rename_i hy
        dsimp only at h
        split at h
        · rename_i colon type after
          cases h
          split
          · rename_i hcolon
            exact .typed hy hcolon
          · rename_i hcolon
            refine .plain hy fun _ _ _ heq => ?_
            cases heq
            exact hcolon
        · rename_i hshort
          cases h
          exact .plain hy fun colon type after heq => absurd heq (hshort colon type after)
      · contradiction

/-- The header of a class is written behind its keyword, up to the body. -/
theorem header_of_class? (ha : Accepted ts found)
    (hsplit : Lexeme.ofTokens false ts = before.reverse ++ x :: s) {kind : Class.Kind}
    {anonymous : Bool} {c : Class} (h : p.class? kind anonymous i s = some c) :
    Header (Bracket.Partners found) s c.nameIndex c.parents c.interfaces c.bodyStarts := by
  obtain ⟨s₁, s₂, y, r, hname, hparents, hinterfaces, hbrace, _, hstart, _⟩ := class?_eq_some h
  have hne {t : List Lexeme} (ht : t <:+ s) : ∀ y ∈ t, y.text ≠ "" := by
    intro y hy
    have hmem := Accepted.mem hsplit (List.mem_cons_of_mem x (ht.mem hy))
    exact ha.nonempty _ hmem.1
  have hs₁ := className?_suffix hname
  have hs₂ := (namesAfter?_suffix hparents).trans hs₁
  exact ⟨s₁, s₂, y, r, heading_of_className? ha hsplit hname,
    clause_of_namesAfter? (hne hs₁) hparents, clause_of_namesAfter? (hne hs₂) hinterfaces, hbrace,
    hstart.symm⟩

end PhpLint.Outline.Pass
