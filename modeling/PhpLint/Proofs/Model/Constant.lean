import PhpLint.Proofs.Model.Element
import PhpLint.Proofs.Model.Forest

/-!
Where the names of constants stand. The list behind a `const` ends with a semicolon, or with the
bracket around it; a close tag ends one of its elements only, so that what follows the next comma is
read as one more constant.
-/
namespace PhpLint

/-! ### Lists -/

namespace Lexeme

variable {before s e : List Lexeme} {x : Lexeme}

/-- Whether a lexeme at the level of a list of constants stands behind it. -/
def stopsConstants (x : Lexeme) : Bool :=
  x.is ";" || x.isCloseBracket

theorem listElements_constants_cons (fresh : Bool) (depth : Nat) (hx : x.isSpace = false)
    (s : List Lexeme) : listElements toToken "," ";" fresh depth (x :: s) =
      if depth = 0 ∧ x.stopsConstants then []
      else if depth = 0 ∧ x.is "," then listElements toToken "," ";" true 0 s
      else if fresh then
        (x :: s) :: listElements toToken "," ";" false (nested depth x.toToken) s
      else listElements toToken "," ";" false (nested depth x.toToken) s := by
  rw [listElements_step _ (by decide), hx, Bool.and_false]
  cases fresh <;> rfl

/-- What holds of the first lexeme and of the later ones holds of all. -/
theorem forall_split_cons {P : List Lexeme → Lexeme → Prop} (hx : P [] x)
    (hs : ∀ a z b, s = a ++ z :: b → P (x :: a) z) : ∀ a z b, x :: s = a ++ z :: b → P a z := by
  intro a z b hsplit
  cases a with
  | nil =>
    rw [← (List.cons.inj hsplit).1]
    exact hx
  | cons w a =>
    obtain ⟨hw, hsplit⟩ := List.cons.inj hsplit
    rw [← hw]
    exact hs a z b hsplit

/--
An element of a list of constants stands at its front or right behind a comma at its level. Nothing
in front of it stops the list.
-/
theorem listElements_constants_split {fresh : Bool} {depth : Nat} {inside outside : List Token}
    (hopened : opened before = inside ++ outside) (hdepth : inside.length = depth)
    (hspace : ∀ x ∈ s, x.isSpace = false)
    (he : e ∈ listElements toToken "," ";" fresh depth s) :
    ∃ front, s = front ++ e ∧
      (∀ a z b, front = a ++ z :: b → ∃ within, opened (a.reverse ++ before) = within ++ outside ∧
        ¬ (within = [] ∧ z.stopsConstants)) ∧
      (fresh ∧ front = [] ∨ ∃ a comma, front = a ++ [comma] ∧ comma.is "," ∧
        opened (a.reverse ++ before) = outside) := by
  induction s generalizing fresh depth before inside with
  | nil => contradiction
  | cons x s ih =>
    obtain ⟨hx, hspace⟩ := List.forall_mem_cons.mp hspace
    rw [listElements_constants_cons fresh depth hx] at he
    by_cases hend : depth = 0 ∧ x.stopsConstants
    · rw [if_pos hend] at he
      contradiction
    rw [if_neg hend] at he
    have hgoes : ¬ (inside = [] ∧ x.stopsConstants) :=
      fun h => hend ⟨hdepth.symm.trans (List.length_eq_zero_iff.mpr h.1), h.2⟩
    have hclose : ¬ (inside = [] ∧ x.isCloseBracket) :=
      fun h => hgoes ⟨h.1, by unfold stopsConstants; simp [h.2]⟩
    obtain ⟨inside', hinside, hlength⟩ := opened_cons_append hopened hclose
    -- an element behind `x` is one of the list that goes on there
    have hlater {fresh' : Bool} {depth' : Nat} (hdepth' : inside'.length = depth')
        (he : e ∈ listElements toToken "," ";" fresh' depth' s)
        (hfirst : fresh' → x.is "," ∧ opened before = outside) :
        ∃ front, x :: s = front ++ e ∧
          (∀ a z b, front = a ++ z :: b → ∃ within,
            opened (a.reverse ++ before) = within ++ outside ∧
              ¬ (within = [] ∧ z.stopsConstants)) ∧
          (fresh ∧ front = [] ∨ ∃ a comma, front = a ++ [comma] ∧ comma.is "," ∧
            opened (a.reverse ++ before) = outside) := by
      obtain ⟨front, hs, hfront, hcomma⟩ := ih hinside hdepth' hspace he
      refine ⟨x :: front, by rw [hs]; rfl,
        forall_split_cons ⟨inside, hopened, hgoes⟩ fun a z b hsplit => ?_, Or.inr ?_⟩
      · obtain ⟨within, hwithin, hz⟩ := hfront a z b hsplit
        exact ⟨within, by rw [← hwithin]; simp, hz⟩
      · rcases hcomma with ⟨hfresh, rfl⟩ | ⟨a, comma, rfl, hcomma, hlevel⟩
        · exact ⟨[], x, rfl, hfirst hfresh⟩
        · exact ⟨x :: a, comma, rfl, hcomma, by rw [← hlevel]; simp⟩
    by_cases hsep : depth = 0 ∧ x.is ","
    · rw [if_pos hsep] at he
      have hnil : inside = [] := List.length_eq_zero_iff.mp (hdepth.trans hsep.1)
      have hnested : nested 0 x.toToken = 0 := nested_of_is hsep.2 (by decide) 0
      rw [hdepth, hsep.1, hnested] at hlength
      rw [hnil] at hopened
      exact hlater hlength he fun _ => ⟨hsep.2, hopened⟩
    rw [if_neg hsep] at he
    rw [hdepth] at hlength
    cases fresh with
    | false => exact hlater hlength he nofun
    | true =>
      rcases List.mem_cons.mp he with rfl | he
      · exact ⟨[], rfl, by simp, Or.inl ⟨rfl, rfl⟩⟩
      · exact hlater hlength he nofun

/-- A name is found in front of all terminators. -/
theorem constantName_split {name : Option Lexeme} {y : Lexeme}
    (h : Outline.Pass.constantName name s = some y) (hname : name ≠ some y) :
    ∃ front rest, s = front ++ y :: rest ∧ ∀ z ∈ front, z.isTerminator = false := by
  induction s generalizing name with
  | nil => exact absurd h hname
  | cons x s ih =>
    rw [Outline.Pass.constantName] at h
    split at h
    · exact absurd h hname
    · rename_i hgoes
      have hx : x.isTerminator = false := by
        simp only [Bool.or_eq_true, not_or, Bool.not_eq_true] at hgoes
        exact hgoes.2
      by_cases hsame : y = x
      · exact ⟨[], s, by rw [hsame]; rfl, nofun⟩
      · obtain ⟨front, rest, rfl, hfront⟩ := ih h (by split <;> grind)
        exact ⟨x :: front, rest, rfl, List.forall_mem_cons.mpr ⟨hx, hfront⟩⟩

/-! ### Levels -/

theorem foldl_nested_filter (tokens : List Token) (depth : Nat) :
    (tokens.filter (!·.isSpace)).foldl nested depth = tokens.foldl nested depth := by
  induction tokens generalizing depth with
  | nil => rfl
  | cons t tokens ih =>
    by_cases ht : t.isSpace
    · rw [List.filter_cons_of_neg (by simpa using ht), ih, List.foldl_cons, nested_of_isSpace ht]
    · rw [List.filter_cons_of_pos (by simpa using ht), List.foldl_cons, ih, List.foldl_cons]

theorem foldl_nested_reverse (before : List Lexeme) :
    (before.reverse.map (·.toToken)).foldl nested 0 = (opened before).length := by
  induction before with
  | nil => rfl
  | cons x before ih =>
    rw [List.reverse_cons, List.map_append, List.foldl_append, ih, opened]
    change nested _ x.toToken = _
    unfold nested
    split
    · rfl
    · split
      · rw [List.length_tail]
      · rfl

/-- The level of a token is the number of brackets that are open there. -/
theorem Paired.foldl_nested_take {ts : List Token} {found : List (Nat × Nat)} {after : List Lexeme}
    (h : Paired ts found) (hsplit : ofTokens false ts = before.reverse ++ x :: after) :
    (ts.take x.index).foldl Lexeme.nested 0 = (opened before).length := by
  have htake : ts.take x.index = ts.filter (·.index < x.index) := by
    conv_rhs => rw [← List.take_append_drop x.index ts, List.filter_append]
    rw [List.filter_eq_self.mpr, List.filter_eq_nil_iff.mpr, List.append_nil]
    · intro t ht
      obtain ⟨i, hi⟩ := List.mem_iff_getElem?.mp ht
      rw [List.getElem?_drop] at hi
      simp [index_of_getElem? h.indexed hi]
    · intro t ht
      obtain ⟨i, hi⟩ := List.mem_iff_getElem?.mp ht
      rw [List.getElem?_take, Option.ite_none_right_eq_some] at hi
      simpa [index_of_getElem? h.indexed hi.2] using hi.1
  obtain ⟨hafter, _, hbetween⟩ := h.rising hsplit
  have hlexemes : (ts.take x.index).filter (!·.isSpace) = before.reverse.map (·.toToken) := by
    rw [htake, List.filter_comm, ← map_toToken_ofTokens false ts, hsplit, List.map_append,
      List.filter_append, List.filter_eq_self.mpr, List.filter_eq_nil_iff.mpr, List.append_nil]
    · intro t ht
      obtain ⟨y, hy, rfl⟩ := List.mem_map.mp ht
      rcases List.mem_cons.mp hy with rfl | hy
      · simp
      · have := (List.pairwise_cons.mp hafter).1 y hy
        simp only [decide_eq_true_eq]
        omega
    · intro t ht
      obtain ⟨y, hy, rfl⟩ := List.mem_map.mp ht
      simpa using hbetween y (List.mem_reverse.mp hy) x List.mem_cons_self
  rw [← foldl_nested_filter, hlexemes, foldl_nested_reverse]

end Lexeme

/-! ### Constants of the pass -/

namespace Outline

open Lexeme (opened)

variable {ts : List Token} {found : List (Nat × Nat)} {before after : List Lexeme} {x : Lexeme}

namespace Pass

variable {p p' : Pass} {size : Nat} {c : Constant}

/-- A constant of the file or of one of its classes. -/
def Declares (classes : Array Class) (constants : Array Constant) (c : Constant) : Prop :=
  c ∈ constants ∨ ∃ d ∈ classes, c ∈ d.constants

/-- A constant whose name is read in the list behind a keyword. -/
def ReadIn (s : List Lexeme) (c : Constant) : Prop :=
  ∃ e ∈ listElements Lexeme.toToken "," ";" true 0 s, ∃ y, constantName none e = some y ∧
    c.index = y.index

theorem exists_of_mem_modify {α : Type} {xs : Array α} {f : α → α} {b : α} {i : Nat}
    (h : b ∈ xs.modify i f) : b ∈ xs ∨ ∃ a ∈ xs, b = f a := by
  obtain ⟨j, hj⟩ := Array.mem_iff_getElem?.mp h
  rw [Array.getElem?_modify] at hj
  split at hj
  · obtain ⟨a, ha, rfl⟩ := Option.map_eq_some_iff.mp hj
    exact Or.inr ⟨a, Array.mem_of_getElem? ha, rfl⟩
  · exact Or.inl (Array.mem_of_getElem? hj)

/-- Classes that change apart from their constants. -/
theorem Declares.of_modify {classes : Array Class} {constants : Array Constant} {id : Nat}
    {f : Class → Class} (h : Declares (classes.modify id f) constants c)
    (hf : ∀ d, (f d).constants = d.constants) : Declares classes constants c := by
  rcases h with h | ⟨d, hd, hc⟩
  · exact Or.inl h
  rcases exists_of_mem_modify hd with hd | ⟨d', hd', rfl⟩
  · exact Or.inr ⟨d, hd, hc⟩
  · exact Or.inr ⟨d', hd', hf d' ▸ hc⟩

/-- The constants after a declaration are the ones before it and those that are read in its list. -/
theorem declares_constantDeclaration {s : List Lexeme}
    (h : Declares (p.constantDeclaration s).classes (p.constantDeclaration s).constants c) :
    Declares p.classes p.constants c ∨ ReadIn s c := by
  unfold constantDeclaration at h
  dsimp only at h
  split at h
  · exact Or.inl h
  · split at h
    · rcases h with h | ⟨d, hd, hc⟩
      · exact Or.inl (Or.inl h)
      dsimp only at hd
      rcases exists_of_mem_modify hd with hd | ⟨d', hd', rfl⟩
      · exact Or.inl (Or.inr ⟨d, hd, hc⟩)
      rcases List.mem_append.mp hc with hc | hc
      · exact Or.inl (Or.inr ⟨d', hd', hc⟩)
      · obtain ⟨e, he, hname⟩ := List.mem_filterMap.mp hc
        obtain ⟨y, hy, rfl⟩ := Option.map_eq_some_iff.mp hname
        exact Or.inr ⟨e, he, y, hy, rfl⟩
    · rcases h with h | h
      · rcases Array.mem_append.mp h with h | h
        · exact Or.inl (Or.inl h)
        · obtain ⟨e, he, hname⟩ := List.mem_filterMap.mp (List.mem_toArray.mp h)
          obtain ⟨y, hy, rfl⟩ := Option.map_eq_some_iff.mp hname
          exact Or.inr ⟨e, he, y, hy, rfl⟩
      · exact Or.inl (Or.inr h)

/-- Only a `const` declares a constant. -/
theorem Step.declares (h : p.Step size before x after p') (hc : Declares p'.classes p'.constants c) :
    Declares p.classes p.constants c ∨ x.isKeyword "const" ∧ ReadIn after c := by
  cases h with
  | opening =>
    obtain ⟨modifiers, type, heq⟩ := openBracket_eq p x
    rw [heq] at hc
    exact Or.inl hc
  | closing =>
    cases hscopes : p.scopes with
    | nil =>
      rw [closeBracket_of_nil hscopes] at hc
      exact Or.inl hc
    | cons scope scopes =>
      obtain ⟨modifiers, type, heq⟩ := closeBracket_eq hscopes x
      rw [heq] at hc
      cases scope with
      | classBody id =>
        dsimp only [endScope] at hc
        exact Or.inl (Declares.of_modify hc fun _ => rfl)
      | _ => exact Or.inl hc
  | readAhead => exact Or.inl hc
  | statement _ _ _ h =>
    cases h with
    | @property id =>
      unfold propertyDeclaration at hc
      dsimp only at hc
      split at hc <;> exact Or.inl (Declares.of_modify hc fun _ => rfl)
    | traits =>
      dsimp only [traitUse, skipTo] at hc
      exact Or.inl (Declares.of_modify hc fun _ => rfl)
    | imports =>
      obtain ⟨f, skipUntil, heq⟩ := importStatement_eq p size after
      rw [heq] at hc
      exact Or.inl hc
    | constants hkey => exact (declares_constantDeclaration hc).imp_right fun hread => ⟨hkey, hread⟩
    | @«namespace» y =>
      obtain ⟨bodies, heq, _⟩ := addNamespace_eq p size x.index (Lexeme.readName after).1 y
      rw [heq] at hc
      exact Or.inl hc
    | @«class» _ d _ hclass =>
      refine Or.inl ?_
      rcases hc with hc | ⟨d', hd', hc⟩
      · exact Or.inl hc
      rcases Array.mem_push.mp hd' with hd' | rfl
      · exact Or.inr ⟨d', hd', hc⟩
      · rw [(members_of_class? hclass).2] at hc
        contradiction
    | @function _ header =>
      obtain ⟨bodies, heq, _⟩ := addFunction_eq p x.index header
      rw [heq] at hc
      rcases methodClasses_cases p x.index header with hclasses | ⟨id, name, _, hclasses⟩
      · rw [hclasses] at hc
        exact Or.inl hc
      · rw [hclasses] at hc
        exact Or.inl (Declares.of_modify (f := (addMethod · p.functions.size name header.parameters))
          hc fun _ => rfl)
    | _ => exact Or.inl hc

/-- Every constant is read in the list behind a `const`. -/
theorem Reaches.constants_read (h : Reaches ts before p) :
    ∀ c, Declares p.classes p.constants c → ∃ (before : List Lexeme) (x : Lexeme)
      (after : List Lexeme), Lexeme.ofTokens false ts = before.reverse ++ x :: after ∧
        x.isKeyword "const" ∧ ReadIn after c := by
  induction h with
  | start =>
    rintro c (hc | ⟨d, hd, _⟩)
    · simp [Pass.start] at hc
    · simp [Pass.start] at hd
  | @step p before after x h hsplit ih =>
    intro c hc
    rcases (step_cases p ts.length before x after).declares hc with hc | ⟨hkey, hread⟩
    · exact ih c hc
    · exact ⟨before, x, after, hsplit, hkey, hread⟩

end Pass

theorem Accepted.exists_lexeme (ha : Accepted ts found) {i : Nat} {t : Token} (ht : ts[i]? = some t)
    (hspace : t.isSpace = false) : ∃ z ∈ Lexeme.ofTokens false ts, z.toToken = t ∧ z.index = i := by
  have hmem : t ∈ (Lexeme.ofTokens false ts).map (·.toToken) := by
    rw [Lexeme.map_toToken_ofTokens, List.mem_filter]
    exact ⟨List.mem_of_getElem? ht, by simp [hspace]⟩
  obtain ⟨z, hz, rfl⟩ := List.mem_map.mp hmem
  exact ⟨z, hz, rfl, Lexeme.index_of_getElem? ha.indexed ht⟩

/--
A terminator between a `const`, at its level, and a name that is read in its list is a close tag, with
a comma behind it at the same level.
-/
theorem Accepted.closeTag_of_terminator (ha : Accepted ts found)
    (hsplit : Lexeme.ofTokens false ts = before.reverse ++ x :: after) (hkey : x.isKeyword "const")
    {c : Constant} (hread : Pass.ReadIn after c) :
    x.index < c.index ∧ ∀ i t, x.index < i → i < c.index → ts[i]? = some t → t.isTerminator →
      (ts.take i).foldl Lexeme.nested 0 = (ts.take x.index).foldl Lexeme.nested 0 →
        t.kind = .closeTag ∧ ∃ comma : Lexeme, i < comma.index ∧ comma.index < c.index ∧
          ts[comma.index]? = some comma.toToken ∧ comma.is "," ∧
          (ts.take comma.index).foldl Lexeme.nested 0 =
            (ts.take x.index).foldl Lexeme.nested 0 := by
  obtain ⟨e, he, y, hy, hindex⟩ := hread
  have hkind : x.kind ≠ .punct := by
    unfold Token.isKeyword at hkey
    simp only [Bool.and_eq_true, beq_iff_eq] at hkey
    rw [hkey.1]
    decide
  have hopened : opened (x :: before) = [] ++ opened before :=
    Lexeme.opened_of_other (Lexeme.not_isOpenBracket_of_kind hkind)
      (Lexeme.not_isCloseBracket_of_kind hkind)
  have hspace (z : Lexeme) (hz : z ∈ after) : z.isSpace = false := by
    simpa using (Accepted.mem hsplit (List.mem_cons_of_mem x hz)).2
  obtain ⟨front, rfl, hfront, hcomma⟩ :=
    Lexeme.listElements_constants_split hopened rfl hspace he
  obtain ⟨inner, rest, rfl, hinner⟩ := Lexeme.constantName_split hy nofun
  -- levels are read off the brackets that are open behind the keyword
  have hlevel {a b : List Lexeme} {z : Lexeme} (heq : front = a ++ z :: b) :
      (ts.take z.index).foldl Lexeme.nested 0 = (opened (a.reverse ++ x :: before)).length := by
    have hsplit' : Lexeme.ofTokens false ts =
        (a.reverse ++ x :: before).reverse ++ z :: (b ++ (inner ++ y :: rest)) := by
      rw [hsplit, heq]
      simp
    exact ha.foldl_nested_take hsplit'
  rw [ha.foldl_nested_take hsplit]
  obtain ⟨hbehind, hrising⟩ := List.pairwise_cons.mp (ha.rising hsplit).1
  have hyat : y ∈ front ++ (inner ++ y :: rest) := by simp
  refine ⟨hindex ▸ hbehind y hyat, fun i t hfrom hto ht hends hdepth => ?_⟩
  have htspace : t.isSpace = false := by
    cases htspace : t.isSpace with
    | false => rfl
    | true =>
      rw [Lexeme.not_isTerminator_of_isSpace htspace] at hends
      contradiction
  obtain ⟨z, hz, rfl, rfl⟩ := ha.exists_lexeme ht htspace
  have hz := ha.mem_after hsplit hz hfrom
  obtain ⟨_, hlater, hinside⟩ := List.pairwise_append.mp hrising
  obtain ⟨_, hrest, _⟩ := List.pairwise_append.mp hlater
  have hzfront : z ∈ front := by
    rcases List.mem_append.mp hz with hz | hz
    · exact hz
    rcases List.mem_append.mp hz with hz | hz
    · rw [hinner z hz] at hends
      contradiction
    · rcases List.mem_cons.mp hz with rfl | hz
      · omega
      · have := (List.pairwise_cons.mp hrest).1 z hz
        omega
  obtain ⟨a, b, heq⟩ := List.append_of_mem hzfront
  obtain ⟨within, hwithin, hgoes⟩ := hfront a z b heq
  rw [hlevel heq, hwithin, List.length_append, Nat.add_eq_right, List.length_eq_zero_iff] at hdepth
  have hclose : z.kind = .closeTag := by
    have hsemicolon : z.is ";" = false := by
      cases hsemicolon : z.is ";" with
      | false => rfl
      | true => exact absurd ⟨hdepth, by unfold Lexeme.stopsConstants; rw [hsemicolon]; rfl⟩ hgoes
    unfold Token.isTerminator at hends
    simpa [hsemicolon] using hends
  refine ⟨hclose, ?_⟩
  rcases hcomma with ⟨_, rfl⟩ | ⟨a', comma, heq', hsep, hout⟩
  · contradiction
  have hcommaat : comma ∈ front := by
    rw [heq']
    simp
  have hzbefore : z ∈ a' := by
    rw [heq'] at hzfront
    refine (List.mem_append.mp hzfront).resolve_right fun hlast => ?_
    rw [List.mem_singleton.mp hlast] at hclose
    unfold Token.is at hsep
    rw [hclose] at hsep
    contradiction
  have hfrontrising := (List.pairwise_append.mp hrising).1
  rw [heq'] at hfrontrising
  refine ⟨comma, ?_, ?_, ?_, hsep, ?_⟩
  · exact (List.pairwise_append.mp hfrontrising).2.2 z hzbefore comma List.mem_cons_self
  · rw [hindex]
    exact hinside comma hcommaat y (by simp)
  · exact ha.getElem?_index hsplit (List.mem_cons_of_mem x (List.mem_append_left _ hcommaat))
  · rw [hlevel heq', hout]

end Outline

/-! ### Constants of files -/

open Outline

namespace SourceFile

/-- The number of brackets around a token. -/
def depthAt (file : SourceFile) (i : Nat) : Nat :=
  (file.tokens.toList.take i).foldl Lexeme.nested 0

/-- A constant of the file or of one of its classes. -/
def Declares (file : SourceFile) (c : Constant) : Prop :=
  c ∈ file.constants ∨ ∃ d ∈ file.classes, c ∈ d.constants

/-- Between two tokens, at the level of the first, stands a token of a kind. -/
def Meets (file : SourceFile) (kind : Token → Bool) (k n : Nat) : Prop :=
  ∃ i < n, k < i ∧ file.tokens[i]?.any kind ∧ file.depthAt i = file.depthAt k

/-- Between two tokens, at the level of the first, a comma stands behind a close tag. -/
def PassesCloseTag (file : SourceFile) (k n : Nat) : Prop :=
  ∃ j < n, file.Meets (·.kind == .closeTag) k j ∧ file.tokens[j]?.any (·.is ",") ∧
    file.depthAt j = file.depthAt k

instance (file : SourceFile) (kind : Token → Bool) (k n : Nat) :
    Decidable (file.Meets kind k n) :=
  inferInstanceAs (Decidable (∃ i < n, _))

instance (file : SourceFile) (k n : Nat) : Decidable (file.PassesCloseTag k n) :=
  inferInstanceAs (Decidable (∃ j < n, _))

theorem Meets.mono {file : SourceFile} {kind kind' : Token → Bool} {k m n : Nat}
    (h : file.Meets kind k m) (hm : m ≤ n) (hkind : ∀ t, kind t → kind' t) :
    file.Meets kind' k n := by
  obtain ⟨i, hi, hk, hany, hdepth⟩ := h
  obtain ⟨t, ht, hkind'⟩ := Option.any_eq_true _ _ |>.mp hany
  exact ⟨i, Nat.lt_of_lt_of_le hi hm, hk, by rw [ht]; exact hkind t hkind', hdepth⟩

theorem exists_declares_of_ofOutline {name : String} {ts : List Token} {found : List (Nat × Nat)}
    {c : Constant} (h : (ofOutline name ts (ofFinal ts found)).Declares c) :
    Pass.Declares (Pass.final ts).classes (Pass.final ts).constants c := by
  rcases h with h | ⟨d, hd, hc⟩
  · exact Or.inl (Array.mem_toList_iff.mp h)
  · obtain ⟨i, d', hd', rfl⟩ := exists_getElem?_of_mem_classes hd
    exact Or.inr ⟨d', Array.mem_of_getElem? hd', hc⟩

/--
In front of the name of a constant stands a `const`, with no semicolon at its level between them. So
a terminator at that level lies between them if and only if the list goes on with a comma behind a
close tag.
-/
theorem meets_terminator_iff_passesCloseTag {name : String} {content : ByteArray}
    {file : SourceFile} (h : parse name content = .ok file) {c : Constant} (hc : file.Declares c) :
    ∃ k < c.index, file.tokens[k]?.any (·.isKeyword "const") ∧ ¬ file.Meets (·.is ";") k c.index ∧
      (file.Meets Token.isTerminator k c.index ↔ file.PassesCloseTag k c.index) := by
  obtain ⟨ts, found, _, ha, rfl⟩ := parse_eq_ok h
  obtain ⟨before, x, after, hsplit, hkey, hread⟩ :=
    (Pass.reaches_final ts).constants_read c (exists_declares_of_ofOutline hc)
  obtain ⟨hlt, hterminators⟩ := ha.closeTag_of_terminator hsplit hkey hread
  have hget (i : Nat) : (ofOutline name ts (ofFinal ts found)).tokens[i]? = ts[i]? :=
    List.getElem?_toArray ..
  refine ⟨x.index, hlt, ?_, ?_, ?_, ?_⟩
  · rw [hget, ha.getElem?_index hsplit List.mem_cons_self]
    exact hkey
  · rintro ⟨i, hi, hfrom, hany, hdepth⟩
    obtain ⟨t, ht, hsemicolon⟩ := (Option.any_eq_true _ _).mp hany
    rw [hget] at ht
    have hends : t.isTerminator := by
      unfold Token.isTerminator
      rw [hsemicolon]
      rfl
    have hkind := (hterminators i t hfrom hi ht hends hdepth).1
    unfold Token.is at hsemicolon
    rw [hkind] at hsemicolon
    contradiction
  · rintro ⟨i, hi, hfrom, hany, hdepth⟩
    obtain ⟨t, ht, hends⟩ := (Option.any_eq_true _ _).mp hany
    rw [hget] at ht
    obtain ⟨hkind, comma, hbehind, hinside, hcomma, hsep, hlevel⟩ :=
      hterminators i t hfrom hi ht hends hdepth
    refine ⟨comma.index, hinside, ⟨i, hbehind, hfrom, ?_, hdepth⟩, ?_, hlevel⟩
    · rw [hget, ht]
      exact beq_iff_eq.mpr hkind
    · rw [hget, hcomma]
      exact hsep
  · rintro ⟨j, hj, hmeets, _⟩
    refine hmeets.mono (Nat.le_of_lt hj) fun t ht => ?_
    unfold Token.isTerminator
    rw [ht, Bool.or_true]

/-- Two constants of a class, in one list. -/
theorem meets_terminator_iff_passesCloseTag_class : ∃ file,
    parse "a.php" "<?php class A { const B = [1, 2], C = 3; }".toUTF8 = .ok file ∧
      ∃ c, file.Declares c ∧ c.index = 21 ∧ ∃ k < c.index,
        file.tokens[k]?.any (·.isKeyword "const") ∧ ¬ file.Meets (·.is ";") k c.index ∧
          (file.Meets Token.isTerminator k c.index ↔ file.PassesCloseTag k c.index) := by
  have hdeclares : (parse "a.php" "<?php class A { const B = [1, 2], C = 3; }".toUTF8).toOption.map
      (fun file => decide (∃ d ∈ file.classes.toList, ∃ c ∈ d.constants, c.index = 21)) = some true := by
    decide +kernel
  cases hparse : parse "a.php" "<?php class A { const B = [1, 2], C = 3; }".toUTF8 with
  | error e =>
    rw [hparse] at hdeclares
    contradiction
  | ok file =>
    rw [hparse] at hdeclares
    obtain ⟨d, hd, c, hc, hindex⟩ := of_decide_eq_true (Option.some.inj hdeclares)
    have hdeclared : file.Declares c := Or.inr ⟨d, Array.mem_toList_iff.mp hd, hc⟩
    exact ⟨file, rfl, c, hdeclared, hindex, meets_terminator_iff_passesCloseTag hparse hdeclared⟩

/-- The name in a statement behind a close tag is read as a constant. -/
theorem constant_behind_closeTag : ∃ file,
    parse "a.php" "<?php const A = 1 ?>\n<?php echo 'a', B;".toUTF8 = .ok file ∧
      ∃ c, file.Declares c ∧ ∀ k < c.index, file.tokens[k]?.any (·.isKeyword "const") →
        file.Meets Token.isTerminator k c.index := by
  have hmeets : (parse "a.php" "<?php const A = 1 ?>\n<?php echo 'a', B;".toUTF8).toOption.map
      (fun file => decide (∃ c ∈ file.constants, ∀ k < c.index,
        file.tokens[k]?.any (·.isKeyword "const") → file.Meets Token.isTerminator k c.index)) =
      some true := by
    decide +kernel
  cases hparse : parse "a.php" "<?php const A = 1 ?>\n<?php echo 'a', B;".toUTF8 with
  | error e =>
    rw [hparse] at hmeets
    contradiction
  | ok file =>
    rw [hparse] at hmeets
    obtain ⟨c, hc, hmeets⟩ := of_decide_eq_true (Option.some.inj hmeets)
    exact ⟨file, rfl, c, Or.inl hc, hmeets⟩

end SourceFile

end PhpLint
