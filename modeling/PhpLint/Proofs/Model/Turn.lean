import PhpLint.Proofs.Model.TopLevel

/-!
Which statements the pass comes to. A header, a name, or a statement that was read ahead explains every
lexeme that is passed over.
-/
namespace PhpLint

namespace SourceFile

/-- A token lies between the keyword of a function or namespace and its body. -/
def InHeader (file : SourceFile) (i : Nat) : Prop :=
  (∃ f ∈ file.functions, f.index < i ∧ i < f.headEnd) ∨
    ∃ ns ∈ file.namespaces, ns.index < i ∧ i < ns.bodyStarts

/-- The `use` of an import stands at the top level; behind a parenthesis it belongs to a closure. -/
structure StartsImport (file : SourceFile) (before : List Lexeme) (x : Lexeme) (after : List Lexeme) :
    Prop where
  split : file.lexemes = before ++ x :: after
  key : x.isKeyword "use"
  front : ¬ before.getLast?.any (·.is ")")
  level : file.TopLevel x.index

/-- An import that starts in front of a token goes over it. -/
def InImport (file : SourceFile) (i : Nat) : Prop :=
  ∃ before x after, file.StartsImport before x after ∧ x.index < i ∧
    ∀ z ∈ (Import.read after).2.head?, i < z.index

/-- The names behind a `use` elsewhere go over a token. -/
def InTraits (file : SourceFile) (i : Nat) : Prop :=
  ∃ before x after, file.lexemes = before ++ x :: after ∧ x.isKeyword "use" ∧
    ¬ file.TopLevel x.index ∧ x.index < i ∧ ∀ z ∈ (Lexeme.readNames after).2.head?, i < z.index

end SourceFile

namespace Outline

open Lexeme (Rising opened)

variable {ts : List Token} {found : List (Nat × Nat)} {before after s : List Lexeme} {x y : Lexeme}

/-- A lexeme in front of what is left was read. -/
theorem mem_of_index_lt {first size : Nat} {parts rest : List Lexeme}
    (hrising : Rising first size (parts ++ rest)) (hy : y ∈ parts ++ rest)
    (hlt : y.index < (Lexeme.front rest).getD size) : y ∈ parts := by
  rcases List.mem_append.mp hy with hy | hy
  · exact hy
  · cases rest with
    | nil => contradiction
    | cons z rest =>
      have hz : y.index < z.index := hlt
      rcases List.mem_cons.mp hy with rfl | hy
      · exact absurd hz (Nat.lt_irrefl _)
      · have := (List.pairwise_cons.mp (List.pairwise_append.mp hrising.pairwise).2.1).1 y hy
        omega

namespace Pass

variable {p p' : Pass} {size : Nat}

/-- The lexemes in front of a position are no brackets. -/
def Quiet (s : List Lexeme) (k : Nat) : Prop :=
  ∀ y ∈ s, y.index < k → y.isOpenBracket = false ∧ y.isCloseBracket = false

/-- What a step reads ahead. -/
inductive Ahead (p : Pass) (size : Nat) (before : List Lexeme) (x : Lexeme) (after : List Lexeme)
    (p' : Pass) : Prop where
  | same (hskip : p'.skipUntil = p.skipUntil)
  | traits {id : Nat} (hkey : x.isKeyword "use") (hid : p.classBody = some id)
    (hscopes : p'.scopes = p.scopes)
    (hskip : p'.skipUntil = (Lexeme.front (Lexeme.readNames after).2).getD size)
  | imports (hkey : x.isKeyword "use") (hlevel : p.atNamespaceLevel)
    (hfront : ¬ before.head?.any (·.is ")")) (hturn : p.skipUntil ≤ x.index)
    (hskip : p'.skipUntil = (Lexeme.front (Import.read after).2).getD size)
  | «namespace» {name : String} {y : Lexeme} (hkey : x.isKeyword "namespace")
    (hrest : (Lexeme.readName after).2.head? = some y)
    (hnamespaces : p'.namespaces =
      (p.endNamespace x.index).namespaces.push (namespaceRecord size x.index name y))
    (hskip : p'.skipUntil = y.index)
  | function {header : Signature} (hskip : p'.skipUntil = header.bodyAt)
    (hfunctions : p'.functions = p.functions.push (p.functionRecord x.index header))

theorem Step.ahead (h : p.Step size before x after p') : p.Ahead size before x after p' := by
  cases h with
  | opening =>
    obtain ⟨modifiers, type, heq⟩ := openBracket_eq p x
    rw [heq]
    exact .same rfl
  | closing =>
    cases hscopes : p.scopes with
    | nil =>
      rw [closeBracket_of_nil hscopes]
      exact .same rfl
    | cons scope scopes =>
      obtain ⟨modifiers, type, heq⟩ := closeBracket_eq hscopes x
      rw [heq]
      cases scope <;> exact .same rfl
  | readAhead => exact .same rfl
  | statement _ _ hturn h =>
    cases h with
    | property =>
      obtain ⟨f, type, heq, _⟩ := propertyDeclaration_eq p _ before x
      rw [heq]
      exact .same rfl
    | traits hkey hid => exact .traits hkey hid rfl rfl
    | imports hkey hlevel hfront =>
      by_cases hempty : after.isEmpty
      · unfold importStatement
        rw [if_pos hempty]
        exact .same rfl
      · refine .imports hkey hlevel hfront hturn ?_
        unfold importStatement
        rw [if_neg hempty]
        rfl
    | constants =>
      obtain ⟨id, f, constants, modifiers, heq, _⟩ := constantDeclaration_eq p after
      rw [heq]
      exact .same rfl
    | @«namespace» y _ hkey _ hname =>
      obtain ⟨bodies, heq, _⟩ := addNamespace_eq p size x.index (Lexeme.readName after).1 y
      rw [heq]
      exact .«namespace» hkey (by rw [hname]; rfl) rfl rfl
    | @function _ header =>
      obtain ⟨bodies, heq, _⟩ := addFunction_eq p x.index header
      rw [heq]
      exact .function rfl rfl
    | _ => exact .same rfl

/-- Why lexemes that are still to come will be passed over. -/
inductive Skipping (ts : List Token) (p : Pass) (before s : List Lexeme) : Prop where
  | nothing (h : p.skipUntil ≤ reach before)
  | header {id : Nat} {f : Function} (hf : p.functions[id]? = some f) (hindex : f.index < reach before)
    (hend : p.skipUntil = f.headEnd)
  | name {records : Array Namespace} {ns : Namespace} (hnamespaces : p.namespaces = records.push ns)
    (hindex : ns.index < reach before) (hend : p.skipUntil ≤ ns.bodyStarts)
    (hquiet : Quiet s p.skipUntil)
  | names {q : Pass} {id : Nat} {b a : List Lexeme} {y : Lexeme} (hid : p.classBody = some id)
    (hq : Reaches ts b q) (hsplit : Lexeme.ofTokens false ts = b.reverse ++ y :: a)
    (hkey : y.isKeyword "use") (hbody : q.classBody = some id) (hindex : y.index < reach before)
    (hend : p.skipUntil = (Lexeme.front (Lexeme.readNames a).2).getD ts.length)
    (hquiet : Quiet s p.skipUntil)
  | imports {q : Pass} {b a : List Lexeme} {y : Lexeme} (hq : Reaches ts b q)
    (hsplit : Lexeme.ofTokens false ts = b.reverse ++ y :: a) (hkey : y.isKeyword "use")
    (hlevel : q.atNamespaceLevel) (hfront : ¬ b.head?.any (·.is ")")) (hturn : q.skipUntil ≤ y.index)
    (hindex : y.index < reach before)
    (hend : p.skipUntil = (Lexeme.front (Import.read a).2).getD ts.length)
    (hspaces : ∀ ns ∈ p.namespaces, y.index < ns.index → ns.index = ns.bodyStarts)

theorem Quiet.tail {k : Nat} (h : Quiet (x :: s) k) : Quiet s k :=
  fun y hy => h y (List.mem_cons_of_mem x hy)

/-- What was read of a list of names holds no brackets. -/
theorem quiet_of_parts {first k : Nat} {parts rest : List Lexeme}
    (hrising : Rising first size (parts ++ rest))
    (hparts : ∀ z ∈ parts, z.isNamePart ∨ z.is ",") (hk : k = (Lexeme.front rest).getD size) :
    Quiet (parts ++ rest) k := by
  intro y hy hlt
  rw [hk] at hlt
  exact Lexeme.not_bracket_of_part (hparts y (mem_of_index_lt hrising hy hlt))

/-- A function keeps its place and the end of its header. -/
theorem Step.exists_function (h : p.Step size before x after p') (htracks : p.Tracks before s)
    {id : Nat} {f : Function} (hf : p.functions[id]? = some f) :
    ∃ f', p'.functions[id]? = some f' ∧ f'.index = f.index ∧ f'.headEnd = f.headEnd := by
  obtain ⟨f', hf', _⟩ := h.holds_functions (P := fun _ => True) (fun _ _ _ => trivial)
    ⟨f, hf, trivial⟩
  refine ⟨f', hf', ?_⟩
  rcases h.function_cases hf' with ⟨hid, _⟩ | ⟨g, hg, hindex, hbody, hend⟩
  · have := (Array.getElem?_eq_some_iff.mp hf).1
    omega
  · rw [hf, Option.some.injEq] at hg
    rw [hg]
    exact ⟨hindex, htracks.headEnd_eq (hg ▸ hf) hbody hend⟩

/-- A lexeme that is passed over does nothing unless it is a bracket. -/
theorem Step.eq_of_quiet (h : p.Step size before x after p') (hlt : x.index < p.skipUntil)
    (hopen : x.isOpenBracket = false) (hclose : x.isCloseBracket = false) : p' = p := by
  cases h with
  | opening hopen' =>
    rw [hopen] at hopen'
    contradiction
  | closing hclose' =>
    rw [hclose] at hclose'
    contradiction
  | readAhead => rfl
  | statement _ _ hturn => omega

/-- What is read ahead is still to come until the reading ends. -/
theorem Skipping.step (ha : Accepted ts found)
    (hsplit : Lexeme.ofTokens false ts = before.reverse ++ x :: after) (hreaches : Reaches ts before p)
    (h : p.Skipping ts before (x :: after)) :
    (p.step ts.length before x after).Skipping ts (x :: before) after := by
  have hstep := step_cases p ts.length before x after
  have hrising := ha.between hsplit
  have hx := hrising.between x List.mem_cons_self
  have hlater {i : Nat} (hi : i < reach before) : i < reach (x :: before) :=
    Nat.lt_succ_of_lt (Nat.lt_of_lt_of_le hi hx.1)
  cases hstep.ahead with
  | @traits id hkey hid hscopes hskip =>
    obtain ⟨parts, hparts, hnames⟩ := (Lexeme.writtenList_readNames fun y hy =>
      ha.nonempty _ (Accepted.mem hsplit (List.mem_cons_of_mem x hy)).1).parts
    refine .names (by unfold classBody; rw [hscopes]; exact hid) hreaches hsplit hkey hid
      (Nat.lt_succ_self _) hskip ?_
    have hrest := hrising.tail
    rw [hparts] at hrest
    have hquiet := quiet_of_parts hrest hnames hskip
    rwa [← hparts] at hquiet
  | imports hkey hlevel hfront hturn hskip =>
    refine .imports hreaches hsplit hkey hlevel hfront hturn (Nat.lt_succ_self _) hskip ?_
    intro ns hns hlt
    rcases hstep.spaces.mem_cases hns with ⟨old, hold, hindex, _⟩ | rfl | ⟨_, _, _, _, _, _, _, _, rfl⟩
    · have hle := (hreaches.inOrder ha).le (old.index, old.name)
        (List.mem_map_of_mem (Array.mem_toList_iff.mpr hold))
      dsimp only at hle
      omega
    · rfl
    · exact absurd hlt (Nat.lt_irrefl _)
  | @«namespace» name y hkey hrest hnamespaces hskip =>
    refine .name hnamespaces (Nat.lt_succ_self _) ?_ ?_
    · rw [hskip]
      unfold namespaceRecord
      dsimp only
      split <;> omega
    · obtain ⟨parts, hparts, hnames⟩ := Lexeme.readName_parts after
      obtain ⟨r, hr⟩ := List.head?_eq_some_iff.mp hrest
      have hrest := hrising.tail
      rw [hparts] at hrest
      have hquiet := quiet_of_parts hrest (fun z hz => Or.inl (hnames z hz))
        (k := (p.step ts.length before x after).skipUntil) (by rw [hskip, hr]; rfl)
      rwa [← hparts] at hquiet
  | @function header hskip hfunctions =>
    have hf : (p.step ts.length before x after).functions[p.functions.size]? =
        some (p.functionRecord x.index header) := by
      rw [hfunctions, Array.getElem?_push_size]
    exact .header hf (Nat.lt_succ_self _) (by rw [hskip, headEnd_functionRecord])
  | same hskip =>
    by_cases hpassed : p.skipUntil ≤ x.index + 1
    · exact .nothing (hskip ▸ hpassed)
    cases h with
    | nothing hle => omega
    | @header id f hf hindex hend =>
      obtain ⟨f', hf', hindex', hend'⟩ := hstep.exists_function (hreaches.tracks ha hsplit) hf
      exact .header hf' (hlater (hindex' ▸ hindex)) (by rw [hskip, hend, hend'])
    | name hnamespaces hindex hend hquiet =>
      have hx' := hquiet x List.mem_cons_self (by omega)
      rw [hstep.eq_of_quiet (by omega) hx'.1 hx'.2]
      exact .name hnamespaces (hlater hindex) hend hquiet.tail
    | names hid hq hsplit' hkey hbody hindex hend hquiet =>
      have hx' := hquiet x List.mem_cons_self (by omega)
      rw [hstep.eq_of_quiet (by omega) hx'.1 hx'.2]
      exact .names hid hq hsplit' hkey hbody (hlater hindex) hend hquiet.tail
    | @imports q b a y hq hsplit' hkey hlevel hfront hturn hindex hend hspaces =>
      refine .imports hq hsplit' hkey hlevel hfront hturn (hlater hindex) (hskip.trans hend) ?_
      intro ns hns hlt
      rcases hstep.spaces.mem_cases hns with ⟨old, hold, hindex, hstart⟩ | rfl |
        ⟨_, _, _, _, _, hturn', _⟩
      · rw [hindex, hstart]
        exact hspaces old hold (hindex ▸ hlt)
      · rfl
      · omega

theorem Reaches.skipping (h : Reaches ts before p) (ha : Accepted ts found)
    (hsplit : Lexeme.ofTokens false ts = before.reverse ++ s) : p.Skipping ts before s := by
  induction h generalizing s with
  | start => exact .nothing (Nat.le_refl _)
  | @step p before after x h hsplit' ih =>
    have hs : s = after := by
      rw [hsplit', List.reverse_cons, List.append_assoc] at hsplit
      exact (List.cons.inj (List.append_cancel_left hsplit)).2.symm
    rw [hs]
    exact (ih hsplit').step ha hsplit' h

/-! ### In the file -/

theorem Step.skipUntil_eq (h : p.Step size before x after p') (hlt : x.index < p.skipUntil) :
    p'.skipUntil = p.skipUntil := by
  cases h with
  | opening =>
    obtain ⟨modifiers, type, heq⟩ := openBracket_eq p x
    rw [heq]
  | closing =>
    cases hscopes : p.scopes with
    | nil => rw [closeBracket_of_nil hscopes]
    | cons scope scopes =>
      obtain ⟨modifiers, type, heq⟩ := closeBracket_eq hscopes x
      rw [heq]
      cases scope <;> rfl
  | readAhead => rfl
  | statement _ _ hturn => omega

/-- The body of a namespace was reached, or its name is being passed over. -/
theorem Reaches.bodyStarts (h : Reaches ts before p) (ha : Accepted ts found)
    (hsplit : Lexeme.ofTokens false ts = before.reverse ++ s) :
    ∀ ns ∈ p.namespaces, ns.bodyStarts ≤ reach before ∨ ∃ y ∈ s, y.index = p.skipUntil ∧
      (ns.bodyStarts = y.index ∨ y.isTerminator ∧ ns.bodyStarts = y.index + 1) := by
  induction h generalizing s with
  | start =>
    intro ns hns
    rw [Array.mem_singleton.mp hns]
    exact Or.inl (Nat.le_refl _)
  | @step p before after x h hsplit' ih =>
    have hs : s = after := by
      rw [hsplit', List.reverse_cons, List.append_assoc] at hsplit
      exact (List.cons.inj (List.append_cancel_left hsplit)).2.symm
    subst hs
    have hstep := step_cases p ts.length before x s
    have hrising := ha.between hsplit'
    have hx := hrising.between x List.mem_cons_self
    intro ns hns
    rcases hstep.spaces.mem_cases hns with ⟨old, hold, _, hstart⟩ | rfl |
      ⟨name, y, _, hrest, hbody, _, hskip, _, rfl⟩
    · rw [hstart]
      rcases ih hsplit' old hold with hle | ⟨y, hy, hindex, hbody⟩
      · exact Or.inl (Nat.le_trans hle (Nat.le_succ_of_le hx.1))
      · rcases List.mem_cons.mp hy with rfl | hy
        · refine Or.inl ?_
          change old.bodyStarts ≤ y.index + 1
          omega
        · have hlt := (List.pairwise_cons.mp hrising.pairwise).1 y hy
          exact Or.inr ⟨y, hy, by rw [hindex, hstep.skipUntil_eq (by omega)], hbody⟩
    · exact Or.inl (Nat.le_refl _)
    · obtain ⟨r, hr⟩ := List.head?_eq_some_iff.mp hrest
      refine Or.inr ⟨y, (Lexeme.readName_suffix s).mem (hr ▸ List.mem_cons_self), hskip.symm, ?_⟩
      unfold namespaceRecord
      dsimp only
      by_cases hbrace : y.is "\x7b"
      · exact Or.inl (if_pos hbrace)
      · exact Or.inr ⟨hbody.resolve_left hbrace, if_neg hbrace⟩

/-- A function that starts in front of what is left was read before. -/
theorem Reaches.exists_function_of_final (h : Reaches ts before p) (ha : Accepted ts found)
    (hsplit : Lexeme.ofTokens false ts = before.reverse ++ s) {k : Nat} (hk : ∀ y ∈ s, k ≤ y.index) :
    ∀ (id : Nat) (f : Function), (final ts).functions[id]? = some f → f.index < k →
      ∃ f', p.functions[id]? = some f' ∧ f'.index = f.index ∧ f'.headEnd = f.headEnd := by
  refine h.final_of_keeps (I := fun _ q => ∀ (id : Nat) (f : Function), q.functions[id]? = some f →
    f.index < k → ∃ f', p.functions[id]? = some f' ∧ f'.index = f.index ∧
      f'.headEnd = f.headEnd) hsplit (fun id f hf _ => ⟨f, hf, rfl, rfl⟩) ?_
  intro b q x hx r hq hs hold id f hf hlt
  rcases (step_cases q ts.length b x r).function_cases hf with ⟨_, _, _, _, _, rfl, _⟩ |
    ⟨g, hg, hindex, hbody, hend⟩
  · exact absurd (hk x hx) (Nat.not_le.mpr hlt)
  · obtain ⟨f', hf', hindex', hend'⟩ := hold id g hg (hindex ▸ hlt)
    rw [hindex, (hq.tracks ha hs).headEnd_eq hg hbody hend]
    exact ⟨f', hf', hindex', hend'⟩

/-- A function that was read is one of the file. -/
theorem Reaches.exists_function_final (h : Reaches ts before p) (ha : Accepted ts found)
    (hsplit : Lexeme.ofTokens false ts = before.reverse ++ s) {id : Nat} {f : Function}
    (hf : p.functions[id]? = some f) : ∃ f', (final ts).functions[id]? = some f' ∧
      f'.index = f.index ∧ f'.headEnd = f.headEnd := by
  refine h.final_of_keeps (I := fun _ q => ∃ f', q.functions[id]? = some f' ∧ f'.index = f.index ∧
    f'.headEnd = f.headEnd) hsplit ⟨f, hf, rfl, rfl⟩ ?_
  rintro b q x _ r hq hs ⟨g, hg, hindex, hend⟩
  obtain ⟨f', hf', hindex', hend'⟩ :=
    (step_cases q ts.length b x r).exists_function (hq.tracks ha hs) hg
  exact ⟨f', hf', hindex'.trans hindex, hend'.trans hend⟩

/-- A statement that the pass comes to stands in no header. -/
theorem Reaches.not_inHeader (name : String) (h : Reaches ts before p) (ha : Accepted ts found)
    (hsplit : Lexeme.ofTokens false ts = before.reverse ++ x :: after)
    (hturn : p.skipUntil ≤ x.index) (hx : x.isTerminator = false) :
    ¬ (SourceFile.ofOutline name ts (ofFinal ts found)).InHeader x.index := by
  have hts : ts ≠ [] := by
    rintro rfl
    exact absurd hsplit (by simp [Lexeme.ofTokens])
  have hbehind (y : Lexeme) (hy : y ∈ x :: after) : x.index ≤ y.index := by
    rcases List.mem_cons.mp hy with rfl | hy
    · exact Nat.le_refl _
    · exact Nat.le_of_lt ((List.pairwise_cons.mp (ha.between hsplit).pairwise).1 y hy)
  rintro (⟨f, hf, hlt, hend⟩ | ⟨ns, hns, hlt, hstart⟩)
  · obtain ⟨id, f, hfinal, rfl⟩ := exists_getElem?_of_mem_functions hf
    obtain ⟨g, hg, _, hend'⟩ := h.exists_function_of_final ha hsplit hbehind id f hfinal hlt
    have hread := (h.functions_read ha id g hg).1
    change x.index < f.headEnd at hend
    omega
  · obtain ⟨old, hold, _, rfl⟩ := exists_of_mem_namespaces ha hts hns
    dsimp only at hlt hstart
    obtain ⟨ns, hns, _, hstart'⟩ := h.exists_of_final hsplit hbehind old hold hlt
    rcases h.bodyStarts ha hsplit ns hns with hle | ⟨y, hy, hindex, hbody⟩
    · have := ((ha.between hsplit).between x List.mem_cons_self).1
      omega
    · have hle := hbehind y hy
      rcases hbody with heq | ⟨hterminator, _⟩
      · omega
      · rcases List.mem_cons.mp hy with rfl | hy
        · rw [hx] at hterminator
          contradiction
        · have := (List.pairwise_cons.mp (ha.between hsplit).pairwise).1 y hy
          omega

/--
The pass comes to a lexeme, or a header, the traits of a class or an import go over it. Only global
code can start behind an import that is read on.
-/
theorem Reaches.turn_cases (name : String) (h : Reaches ts before p) (ha : Accepted ts found)
    (hsplit : Lexeme.ofTokens false ts = before.reverse ++ x :: after) :
    p.skipUntil ≤ x.index ∨
    (SourceFile.ofOutline name ts (ofFinal ts found)).InHeader x.index ∨
    (p.classBody.isSome ∧ (SourceFile.ofOutline name ts (ofFinal ts found)).InTraits x.index) ∨
    ∃ b y a, (SourceFile.ofOutline name ts (ofFinal ts found)).StartsImport b y a ∧
      y.index < x.index ∧ (∀ z ∈ (Import.read a).2.head?, x.index < z.index) ∧
      ¬ (SourceFile.ofOutline name ts (ofFinal ts found)).InHeader y.index ∧
      ∀ ns ∈ p.namespaces, y.index < ns.index → ns.index = ns.bodyStarts := by
  by_cases hturn : p.skipUntil ≤ x.index
  · exact Or.inl hturn
  have hreach := ((ha.between hsplit).between x List.mem_cons_self).1
  have hover {rest : List Lexeme} (hend : p.skipUntil = (Lexeme.front rest).getD ts.length) :
      ∀ z ∈ rest.head?, x.index < z.index := by
    intro z hz
    rw [Lexeme.front, hz] at hend
    have hend : p.skipUntil = z.index := hend
    omega
  refine Or.inr ?_
  cases h.skipping ha hsplit with
  | nothing hle => omega
  | @header id f hf hindex hend =>
    obtain ⟨g, hg, hindex', hend'⟩ := h.exists_function_final ha hsplit hf
    have hmem := getElem?_functions name ts found id
    rw [hg] at hmem
    refine Or.inl (Or.inl ⟨_, Array.mem_of_getElem? hmem, ?_, ?_⟩)
    · change g.index < x.index
      omega
    · change x.index < g.headEnd
      omega
  | @name records ns hnamespaces hindex hend =>
    have hheld : Holds p.namespaces (fun m => (m.index < x.index ∧ x.index < m.bodyStarts) ∧
        m.index < reach before) records.size := by
      rw [hnamespaces]
      exact holds_push ⟨⟨by omega, by omega⟩, hindex⟩
    obtain ⟨ns, hns, hlt, hstart⟩ := exists_namespace_of_holds name ha
      (P := fun index bodyStarts => index < x.index ∧ x.index < bodyStarts) <|
      (h.holds_final ha hsplit (P := fun index bodyStarts => index < x.index ∧ x.index < bodyStarts)
        hheld).imp fun ns hns => ⟨hns.1, Nat.lt_of_lt_of_le hns.2 (ha.reach_le hsplit)⟩
    exact Or.inl (Or.inr ⟨ns, hns, hlt, hstart⟩)
  | @names q id b a y hid hq hsplit' hkey hbody hindex hend =>
    refine Or.inr (Or.inl ⟨by rw [hid]; rfl, b.reverse, y, a, hsplit', hkey, ?_, by omega, hover hend⟩)
    rw [← hq.atNamespaceLevel_iff name ha hsplit' (Lexeme.not_isCloseBracket_of_isKeyword hkey)]
    obtain ⟨scopes, hscopes⟩ := scopes_of_classBody hbody
    unfold atNamespaceLevel
    rw [hscopes]
    exact Bool.false_ne_true
  | @imports q b a y hq hsplit' hkey hlevel hfront hturn' hindex hend hspaces =>
    refine Or.inr (Or.inr ⟨b.reverse, y, a, ⟨hsplit', hkey, ?_, ?_⟩, by omega, hover hend, ?_, hspaces⟩)
    · rwa [List.getLast?_reverse]
    · exact (hq.atNamespaceLevel_iff name ha hsplit' (Lexeme.not_isCloseBracket_of_isKeyword hkey)).mp hlevel
    · exact hq.not_inHeader name ha hsplit' hturn' (Lexeme.not_isTerminator_of_isKeyword hkey)

end Pass

end Outline

end PhpLint
