import PhpLint.Proofs.Dict
import PhpLint.Proofs.Model.Expression
import PhpLint.Proofs.Model.Naming

/-!
Where the extents of classes and functions end. A body is announced, then open, then ended by the
bracket that pairs with its first; only a class can lose its bracket to a later record.
-/
namespace PhpLint

/-- Where the header of a function ends: with its body, or with its end if it has none. -/
def Function.headEnd (f : Function) : Nat :=
  f.bodyStarts.getD f.bodyEnds

namespace Import

theorem readFrom_suffix (p : Progress) (s : List Lexeme) : (readFrom p s).2 <:+ s := by
  induction s generalizing p with
  | nil => exact List.suffix_rfl
  | cons x r ih =>
    rw [readFrom]
    split
    · exact (ih _).trans (List.suffix_cons x r)
    · split
      · exact List.suffix_rfl
      · split
        · exact (ih _).trans (List.suffix_cons x r)
        · exact (ih _).trans (List.suffix_cons x r)

theorem read_suffix (s : List Lexeme) : (read s).2 <:+ s :=
  readFrom_suffix .start s

end Import

namespace Outline

open Lexeme (Rising opened)

variable {ts : List Token} {found : List (Nat × Nat)} {before after s : List Lexeme} {x : Lexeme}

/-- The end of a function has been found: its header's, its expression's or its block's. -/
inductive Ended (ts : List Token) (found : List (Nat × Nat)) (f : Function) : Prop where
  | header (hbody : f.bodyStarts = none)
  | expression {before after : List Lexeme} {y : Lexeme}
    (hsplit : Lexeme.ofTokens false ts = before.reverse ++ y :: after)
    (hopen : y.isOpenBracket = false) (hclose : y.isCloseBracket = false)
    (hbody : f.bodyStarts = some y.index)
    (hend : f.bodyEnds = Lexeme.expressionEnd 0 y.index after)
  | block {k : Nat} (hbody : f.bodyStarts = some k) (hpair : (k, f.bodyEnds) ∈ found)

namespace Pass

variable {p p' : Pass} {size id i j k : Nat} {scope : Scope} {c c' : Class} {f f' : Function}

/-! ### What a step does to one record -/

theorem getElem?_push_cases {α : Type} {xs : Array α} {a b : α} (h : (xs.push a)[id]? = some b) :
    id = xs.size ∧ b = a ∨ xs[id]? = some b := by
  rw [Array.getElem?_push] at h
  split at h
  · rename_i hid
    exact Or.inl ⟨hid, (Option.some.inj h).symm⟩
  · exact Or.inr h

/-- A class after a step is a new one or the one before, which may have ended or got a method. -/
theorem Step.class_cases (h : p.Step size before x after p') (hc : p'.classes[id]? = some c') :
    (id = p.classes.size ∧ ∃ kind,
      p.class? kind (before.head?.any (·.isKeyword "new")) x.index after = some c' ∧
      p'.bodies = (c'.bodyStarts, .classBody id) :: p.bodies) ∨
    ∃ c, p.classes[id]? = some c ∧ c'.index = c.index ∧ c'.bodyStarts = c.bodyStarts ∧
      (c'.bodyEnds = c.bodyEnds ∨ x.isCloseBracket ∧ p.scopes.head? = some (.classBody id)) ∧
      (c'.methods = c.methods ∨ p.classBody = some id ∧
        c'.methods = c.methods ++ [p.functions.size] ∧ x.isIdentifier ∧
        ∃ isArrow header, Signature.read? isArrow after = some header ∧
          p'.functions = p.functions.push (p.functionRecord x.index header)) := by
  have hsame (hc : p.classes[id]? = some c') : ∃ c, p.classes[id]? = some c ∧
      c'.index = c.index ∧ c'.bodyStarts = c.bodyStarts ∧
      (c'.bodyEnds = c.bodyEnds ∨ x.isCloseBracket ∧ p.scopes.head? = some (.classBody id)) ∧
      (c'.methods = c.methods ∨ p.classBody = some id ∧
        c'.methods = c.methods ++ [p.functions.size] ∧ x.isIdentifier ∧
        ∃ isArrow header, Signature.read? isArrow after = some header ∧
          p'.functions = p.functions.push (p.functionRecord x.index header)) :=
    ⟨c', hc, rfl, rfl, Or.inl rfl, Or.inl rfl⟩
  cases h.records with
  | same hclasses | functionEnds _ _ hclasses => exact Or.inr (hsame (hclasses ▸ hc))
  | @classEnds id' scopes hclose hscopes hclasses =>
    rw [hclasses, Array.getElem?_modify] at hc
    split at hc
    · rename_i hid
      obtain ⟨c, hold, rfl⟩ := Option.map_eq_some_iff.mp hc
      refine Or.inr ⟨c, hold, rfl, rfl, Or.inr ⟨hclose, ?_⟩, Or.inl rfl⟩
      rw [hscopes, hid]
      rfl
    · exact Or.inr (hsame hc)
  | members hf hclasses =>
    rw [hclasses, Array.getElem?_modify] at hc
    split at hc
    · obtain ⟨c, hold, rfl⟩ := Option.map_eq_some_iff.mp hc
      obtain ⟨properties, constants, heq⟩ := hf c
      rw [heq]
      exact Or.inr ⟨c, hold, rfl, rfl, Or.inl rfl, Or.inl rfl⟩
    · exact Or.inr (hsame hc)
  | traits _ _ hclasses =>
    rw [hclasses, Array.getElem?_modify] at hc
    split at hc
    · obtain ⟨c, hold, rfl⟩ := Option.map_eq_some_iff.mp hc
      exact Or.inr ⟨c, hold, rfl, rfl, Or.inl rfl, Or.inl rfl⟩
    · exact Or.inr (hsame hc)
  | «class» _ hclass hclasses _ _ hbodies =>
    rcases getElem?_push_cases (hclasses ▸ hc) with ⟨hid, rfl⟩ | hc
    · exact Or.inl ⟨hid, _, hclass, hid ▸ hbodies⟩
    · exact Or.inr (hsame hc)
  | function hkind _ hread hclasses hfunctions =>
    rcases hclasses with hclasses | ⟨id', name, hid', hclasses⟩
    · exact Or.inr (hsame (hclasses ▸ hc))
    · rw [hclasses, Array.getElem?_modify] at hc
      split at hc
      · rename_i hid
        obtain ⟨c, hold, rfl⟩ := Option.map_eq_some_iff.mp hc
        exact Or.inr ⟨c, hold, rfl, rfl, Or.inl rfl,
          Or.inr ⟨hid ▸ hid', rfl, hkind, _, _, hread, hfunctions⟩⟩
      · exact Or.inr (hsame hc)

/-- A function after a step is a new one or the one before, which may have ended. -/
theorem Step.function_cases (h : p.Step size before x after p')
    (hf : p'.functions[id]? = some f') :
    (id = p.functions.size ∧ p.skipUntil ≤ x.index ∧ ∃ isArrow header,
      Signature.read? isArrow after = some header ∧ f' = p.functionRecord x.index header ∧
      p'.skipUntil = header.bodyAt ∧ p'.bodies = if header.body = .block then
        (header.bodyAt, .functionBody id) :: p.bodies else p.bodies) ∨
    ∃ f, p.functions[id]? = some f ∧ f'.index = f.index ∧ f'.bodyStarts = f.bodyStarts ∧
      (f'.bodyEnds = f.bodyEnds ∨ x.isCloseBracket ∧ p.scopes.head? = some (.functionBody id)) := by
  cases h.records with
  | same _ hfunctions | classEnds _ _ _ hfunctions | members _ _ hfunctions
  | traits _ _ _ hfunctions | «class» _ _ _ hfunctions =>
    exact Or.inr ⟨f', hfunctions ▸ hf, rfl, rfl, Or.inl rfl⟩
  | functionEnds hclose hscopes _ hfunctions =>
    rw [hfunctions, Array.getElem?_modify] at hf
    split at hf
    · rename_i hid
      obtain ⟨f, hold, rfl⟩ := Option.map_eq_some_iff.mp hf
      refine Or.inr ⟨f, hold, rfl, rfl, Or.inr ⟨hclose, ?_⟩⟩
      rw [hscopes, hid]
      rfl
    · exact Or.inr ⟨f', hf, rfl, rfl, Or.inl rfl⟩
  | function _ hturn hread _ hfunctions _ hahead hbodies =>
    rcases getElem?_push_cases (hfunctions ▸ hf) with ⟨hid, rfl⟩ | hf
    · exact Or.inl ⟨hid, hturn, _, _, hread, rfl, hahead, hid ▸ hbodies⟩
    · exact Or.inr ⟨f', hf, rfl, rfl, Or.inl rfl⟩

/-- A closing bracket ends the class or function whose body is the innermost one. -/
theorem Step.ends (h : p.Step size before x after p') (hclose : x.isCloseBracket)
    {scopes : List Scope} (hscopes : p.scopes = scope :: scopes) :
    p'.classes = ({ p with scopes }.endScope x.index scope).classes ∧
      p'.functions = ({ p with scopes }.endScope x.index scope).functions := by
  cases h with
  | opening hopen =>
    rw [Bracket.not_open_of_isCloseBracket hclose] at hopen
    contradiction
  | closing =>
    obtain ⟨modifiers, type, heq⟩ := closeBracket_eq hscopes x
    rw [heq]
    exact ⟨rfl, rfl⟩
  | readAhead _ hclose' | statement _ hclose' =>
    rw [hclose] at hclose'
    contradiction

theorem lt_skipTo (hrising : Rising (i + 1) size s) (hi : i < size) {rest : List Lexeme}
    (hrest : rest <:+ s) : i < (p.skipTo size rest).skipUntil := by
  unfold skipTo
  cases rest with
  | nil => exact hi
  | cons y rest => exact (hrising.between y (hrest.mem List.mem_cons_self)).1

/-- What was read ahead stays read. -/
theorem Step.skipUntil_le (h : p.Step size before x after p')
    (hrising : Rising (x.index + 1) size after) (hx : x.index < size) :
    p.skipUntil ≤ p'.skipUntil := by
  cases h with
  | opening =>
    obtain ⟨modifiers, type, heq⟩ := openBracket_eq p x
    rw [heq]
  | closing =>
    cases hscopes : p.scopes with
    | nil => rw [closeBracket_of_nil hscopes]
    | cons scope scopes =>
      obtain ⟨modifiers, type, heq⟩ := closeBracket_eq hscopes x
      rw [heq]
      cases scope <;> exact Nat.le_refl _
  | readAhead => exact Nat.le_refl _
  | statement _ _ hturn h =>
    have hread {n : Nat} (hn : x.index < n) : p.skipUntil ≤ n :=
      Nat.le_trans hturn (Nat.le_of_lt hn)
    have hahead {y : Lexeme} (hy : y ∈ after) : x.index < y.index := (hrising.between y hy).1
    cases h with
    | property =>
      obtain ⟨f, type, heq, _⟩ := propertyDeclaration_eq p _ before x
      rw [heq]
    | traits => exact hread (lt_skipTo hrising hx (Lexeme.readNames_suffix after))
    | imports =>
      unfold importStatement
      split
      · exact Nat.le_refl _
      · exact hread (lt_skipTo hrising hx (Import.read_suffix after))
    | constants =>
      obtain ⟨id, f, constants, modifiers, heq, _⟩ := constantDeclaration_eq p after
      rw [heq]
    | @«namespace» y _ _ _ hname =>
      obtain ⟨bodies, heq, _⟩ := addNamespace_eq p size x.index (Lexeme.readName after).1 y
      rw [heq]
      exact hread (hahead ((Lexeme.readName_suffix after).mem (hname ▸ List.mem_cons_self)))
    | @function _ header _ hheader =>
      obtain ⟨bodies, heq, _⟩ := addFunction_eq p x.index header
      obtain ⟨y, r, hsuffix, hat, _⟩ := Signature.read?_eq_some hheader
      rw [heq]
      exact hread (hat ▸ hahead (hsuffix.mem List.mem_cons_self))
    | _ => exact Nat.le_refl _

/-! ### Bodies -/

/-- Another record, from behind token `i` and in front of token `j`, has the bracket at `k`. -/
def Takes (p : Pass) (i j k : Nat) : Scope → Prop
  | .block => False
  | .classBody id => Holds p.classes (fun c => i < c.index ∧ c.bodyStarts = k) id
  | .functionBody id => Holds p.functions (fun f => i < f.index ∧ f.bodyStarts = some k) id
  | .namespaceBody record => Holds p.namespaces
    (fun ns => i < ns.index ∧ ns.index < k ∧ ns.bodyStarts = k ∧ ns.index < j) record

theorem Takes.mono (h : p.Takes i j k scope) {j' : Nat} (hj : j ≤ j') : p.Takes i j' k scope := by
  cases scope with
  | namespaceBody record =>
    exact Holds.imp h fun ns ⟨hi, hk, hstart, hlt⟩ =>
      ⟨hi, hk, hstart, Nat.lt_of_lt_of_le hlt hj⟩
  | _ => exact h

theorem Step.takes (h : p.Step size before x after p') (hj : j ≤ x.index)
    (ht : p.Takes i j k scope) : p'.Takes i j k scope := by
  cases scope with
  | block => exact ht
  | classBody id => exact h.holds_classes (fun c _ _ _ _ _ hc => hc) ht
  | functionBody id => exact h.holds_functions (fun f _ hf => hf) ht
  | namespaceBody record =>
    exact h.holds_namespaces (fun ns hns => Nat.lt_of_lt_of_le hns.2.2.2 hj)
      (fun ns _ _ hns => hns) ht

/-- A scope is left by the bracket that closes it. -/
theorem Step.mem_scopes (h : p.Step size before x after p') (hscope : scope ∈ p.scopes) :
    scope ∈ p'.scopes ∨ x.isCloseBracket ∧ p.scopes.head? = some scope := by
  cases h.brackets with
  | same _ _ hscopes | «class» _ _ _ _ hscopes | function _ _ _ _ _ hscopes
  | «namespace» _ _ _ _ _ _ _ hscopes => exact Or.inl (hscopes ▸ hscope)
  | opening _ hscopes => exact Or.inl (hscopes ▸ List.mem_cons_of_mem _ hscope)
  | closing hclose hscopes =>
    rw [hscopes]
    cases hp : p.scopes with
    | nil =>
      rw [hp] at hscope
      contradiction
    | cons top rest =>
      rw [hp] at hscope
      rcases List.mem_cons.mp hscope with rfl | hscope
      · exact Or.inr ⟨hclose, rfl⟩
      · exact Or.inl hscope

/-- An announced body stays announced until it is opened, or until a new record takes its bracket. -/
theorem Step.lookup_bodies (h : p.Step size before x after p')
    (hrising : Rising (x.index + 1) size after) (hlookup : p.bodies.lookup k = some scope) :
    p'.bodies.lookup k = some scope ∨ scope ∈ p'.scopes ∨
      x.isOpenBracket = false ∧ p.skipUntil ≤ x.index ∧
        ∃ scope', ∀ i < x.index, p'.Takes i (x.index + 1) k scope' := by
  have hpush {k' : Nat} {scope' : Scope} (hbodies : p'.bodies = (k', scope') :: p.bodies) :
      k = k' ∨ p'.bodies.lookup k = some scope := by
    rw [hbodies, List.lookup_cons]
    by_cases hk : k = k'
    · exact Or.inl hk
    · rw [beq_eq_false_iff_ne.mpr hk]
      exact Or.inr hlookup
  cases h.brackets with
  | same _ _ _ hbodies | closing _ _ hbodies => exact Or.inl (hbodies ▸ hlookup)
  | opening _ hscopes hbodies =>
    by_cases hk : k = x.index
    · rw [hscopes, ← hk, hlookup]
      exact Or.inr (Or.inl List.mem_cons_self)
    · rw [hbodies, lookup_filter_of_ne hk]
      exact Or.inl hlookup
  | @«class» _ c hopen _ hclass hclasses _ hbodies hturn =>
    rcases hpush hbodies with rfl | hkept
    · refine Or.inr (Or.inr ⟨hopen, hturn, .classBody p.classes.size, fun i hi => ?_⟩)
      obtain ⟨_, _, _, _, _, _, _, _, hindex, _⟩ := class?_eq_some hclass
      change Holds p'.classes _ _
      rw [hclasses]
      exact holds_push ⟨hindex ▸ hi, rfl⟩
    · exact Or.inl hkept
  | @function _ header hopen _ _ hblock hfunctions _ hbodies hturn =>
    rcases hpush hbodies with rfl | hkept
    · refine Or.inr (Or.inr ⟨hopen, hturn, .functionBody p.functions.size, fun i hi => ?_⟩)
      change Holds p'.functions _ _
      rw [hfunctions]
      refine holds_push ⟨hi, ?_⟩
      unfold functionRecord
      rw [hblock]
      rfl
    · exact Or.inl hkept
  | @«namespace» _ y hopen _ _ hy hbrace hnamespaces _ _ hbodies hturn =>
    rcases hpush hbodies with rfl | hkept
    · refine Or.inr (Or.inr ⟨hopen, hturn,
        .namespaceBody (p.endNamespace x.index).namespaces.size, fun i hi => ?_⟩)
      change Holds p'.namespaces _ _
      rw [hnamespaces]
      exact holds_push ⟨hi, (hrising.between y hy).1, if_pos hbrace, Nat.lt_succ_self _⟩
    · exact Or.inl hkept

/-! ### Functions -/

theorem Tracks.innermost (h : p.Tracks before s) (hhead : p.scopes.head? = some scope) :
    ∃ o outside, opened before = o :: outside ∧ p.Begins (reach before) o.index scope := by
  obtain ⟨scopes, hscopes⟩ := List.head?_eq_some_iff.mp hhead
  have hall := h.scopes
  rw [hscopes] at hall
  obtain ⟨o, outside, hbegins, _, hopened⟩ := List.forall₂_cons_right_iff.mp hall
  exact ⟨o, outside, hopened, hbegins⟩

/-- Only a function with a body is ended by a bracket, so its header keeps its end. -/
theorem Tracks.headEnd_eq (h : p.Tracks before s) (hf : p.functions[id]? = some f)
    (hbody : f'.bodyStarts = f.bodyStarts)
    (hend : f'.bodyEnds = f.bodyEnds ∨ x.isCloseBracket ∧ p.scopes.head? = some (.functionBody id)) :
    f'.headEnd = f.headEnd := by
  unfold Function.headEnd
  rw [hbody]
  rcases hend with hend | ⟨_, hhead⟩
  · rw [hend]
  · obtain ⟨o, _, _, g, hg, hstart⟩ := h.innermost hhead
    rw [hf, Option.some.injEq] at hg
    rw [hg, hstart]
    rfl

theorem headEnd_functionRecord (p : Pass) (i : Nat) (header : Signature) :
    (p.functionRecord i header).headEnd = header.bodyAt := by
  unfold functionRecord Function.headEnd
  cases header.body <;> rfl

/-- The lexeme at which a header ends is no bracket, unless a block begins with it. -/
theorem not_isCloseBracket_of_body? {body : Body} {r : List Lexeme}
    (h : Signature.body? x r = some body) :
    x.isCloseBracket = false ∧ (body = .block ∨ x.isOpenBracket = false) := by
  unfold Signature.body? at h
  split at h
  · rename_i hbrace
    cases h
    exact ⟨Lexeme.not_isCloseBracket_of_is hbrace (by decide), Or.inl rfl⟩
  · split at h
    · rename_i hterminator
      unfold Token.isTerminator at hterminator
      rcases Bool.or_eq_true_iff.mp hterminator with hsemicolon | hkind
      · exact ⟨Lexeme.not_isCloseBracket_of_is hsemicolon (by decide),
          Or.inr (Lexeme.not_isOpenBracket_of_is hsemicolon (by decide))⟩
      · have hpunct : x.kind ≠ .punct := by
          rw [beq_iff_eq.mp hkind]
          decide
        exact ⟨Lexeme.not_isCloseBracket_of_kind hpunct,
          Or.inr (Lexeme.not_isOpenBracket_of_kind hpunct)⟩
    · split at h
      · rename_i harrow
        exact ⟨Lexeme.not_isCloseBracket_of_is harrow (by decide),
          Or.inr (Lexeme.not_isOpenBracket_of_is harrow (by decide))⟩
      · contradiction

/-- The header of a function was read up to a lexeme of the file. -/
theorem Reaches.functions_read (h : Reaches ts before p) (ha : Accepted ts found) :
    ∀ (id : Nat) (f : Function), p.functions[id]? = some f → f.headEnd ≤ p.skipUntil ∧
      ∃ y ∈ Lexeme.ofTokens false ts, y.index = f.headEnd ∧ y.isCloseBracket = false := by
  induction h with
  | start => intro id f hf; simp [Pass.start] at hf
  | @step p before after x h hsplit ih =>
    intro id f' hf'
    have hstep := step_cases p ts.length before x after
    have hrising := ha.between hsplit
    have hskip := hstep.skipUntil_le hrising.tail (hrising.between x List.mem_cons_self).2
    rcases hstep.function_cases hf' with ⟨_, _, isArrow, header, hread, rfl, hahead, _⟩ |
      ⟨f, hf, _, hbody, hend⟩
    · obtain ⟨y, r, hsuffix, hat, hbody⟩ := Signature.read?_eq_some hread
      rw [headEnd_functionRecord]
      refine ⟨Nat.le_of_eq hahead.symm, y, ?_, hat.symm, (not_isCloseBracket_of_body? hbody).1⟩
      · rw [hsplit]
        exact List.mem_append_right _ (List.mem_cons_of_mem x (hsuffix.mem List.mem_cons_self))
    · rw [(h.tracks ha hsplit).headEnd_eq hf hbody hend]
      obtain ⟨hread, hhead⟩ := ih id f hf
      exact ⟨Nat.le_trans hread hskip, hhead⟩

/-- What has become of the body of a function. -/
inductive FunctionStage (ts : List Token) (found : List (Nat × Nat)) (p : Pass) (id : Nat)
    (f : Function) : Prop where
  | announced {k : Nat} (hbody : f.bodyStarts = some k)
    (hlookup : p.bodies.lookup k = some (.functionBody id))
  | inside (hscope : .functionBody id ∈ p.scopes)
  | ended (hended : Ended ts found f)

theorem functionStage_of_read? (hsplit : Lexeme.ofTokens false ts = before.reverse ++ x :: after)
    {isArrow : Bool} {header : Signature} (hread : Signature.read? isArrow after = some header)
    (hbodies : p'.bodies = if header.body = .block then
      (header.bodyAt, .functionBody id) :: p.bodies else p.bodies) :
    p'.FunctionStage ts found id (p.functionRecord x.index header) := by
  obtain ⟨y, r, ⟨inner, rfl⟩, hat, hbody⟩ := Signature.read?_eq_some hread
  cases hheader : header.body with
  | none =>
    refine .ended (.header ?_)
    unfold functionRecord
    rw [hheader]
    rfl
  | block =>
    rw [hheader, if_pos rfl] at hbodies
    refine .announced (k := header.bodyAt) ?_ ?_
    · unfold functionRecord
      rw [hheader]
      rfl
    · rw [hbodies]
      exact List.lookup_cons_self
  | expression last =>
    obtain ⟨hclose, hopen⟩ := not_isCloseBracket_of_body? hbody
    rw [hheader] at hopen hbody
    have hlast := (Signature.body?_eq_expression hbody).2
    have hsplit' : Lexeme.ofTokens false ts = (inner.reverse ++ x :: before).reverse ++ y :: r := by
      rw [hsplit]
      simp
    refine .ended (.expression hsplit' (hopen.resolve_left nofun) hclose ?_ ?_)
    · unfold functionRecord
      rw [hheader, hat]
      rfl
    · unfold functionRecord
      rw [hheader]
      exact hlast

/-- The body of a function cannot be lost: nothing is read between its header and its first bracket. -/
theorem Reaches.functionStage (h : Reaches ts before p) (ha : Accepted ts found) :
    ∀ (id : Nat) (f : Function), p.functions[id]? = some f → p.FunctionStage ts found id f := by
  induction h with
  | start => intro id f hf; simp [Pass.start] at hf
  | @step p before after x h hsplit ih =>
    intro id f' hf'
    have hstep := step_cases p ts.length before x after
    have hrising := ha.between hsplit
    have htracks := h.tracks ha hsplit
    rcases hstep.function_cases hf' with ⟨_, _, _, _, hread, rfl, _, hbodies⟩ |
      ⟨f, hf, _, hbody, hend⟩
    · exact functionStage_of_read? hsplit hread hbodies
    by_cases hends : x.isCloseBracket ∧ p.scopes.head? = some (.functionBody id)
    · obtain ⟨hclose, hhead⟩ := hends
      obtain ⟨o, _, hopened, g, hg, hstart⟩ := htracks.innermost hhead
      obtain ⟨o', _, hopened', hpair⟩ := ha.closing hsplit hclose
      obtain ⟨scopes, hscopes⟩ := List.head?_eq_some_iff.mp hhead
      have hfunctions := (hstep.ends hclose hscopes).2
      rw [hopened] at hopened'
      rw [(List.cons.inj hopened').1] at hstart
      rw [hfunctions] at hf'
      change (p.functions.modify id _)[id]? = some f' at hf'
      rw [Array.getElem?_modify, if_pos rfl, hg] at hf'
      cases hf'
      exact .ended (.block hstart hpair)
    · have hend : f'.bodyEnds = f.bodyEnds := hend.resolve_right hends
      cases ih id f hf with
      | ended hended =>
        refine .ended ?_
        cases hended with
        | header hnone => exact .header (hbody.trans hnone)
        | expression hsplit' hopen hclose hstart hlast =>
          exact .expression hsplit' hopen hclose (hbody.trans hstart) (hend.trans hlast)
        | block hstart hpair => exact .block (hbody.trans hstart) (hend ▸ hpair)
      | inside hscope => exact .inside ((hstep.mem_scopes hscope).resolve_right hends)
      | @announced k hstart hlookup =>
        rcases hstep.lookup_bodies hrising.tail hlookup with hkept | hscope | ⟨hopen, hturn, _⟩
        · exact .announced (hbody.trans hstart) hkept
        · exact .inside hscope
        · -- the bracket of the function was read ahead, so it would be this lexeme
          obtain ⟨_, y, hy, hindex, hbracket⟩ := htracks.bodies _ (mem_of_lookup hlookup)
          have hread : k ≤ p.skipUntil := by
            have hle := (h.functions_read ha id f hf).1
            unfold Function.headEnd at hle
            rwa [hstart] at hle
          rcases List.mem_cons.mp hy with rfl | hy
          · rw [hopen] at hbracket
            contradiction
          · have := (List.pairwise_cons.mp hrising.pairwise).1 y hy
            dsimp only at hindex
            omega

/-- A function is read after the headers of those in front of it. -/
theorem Reaches.functions_rise (h : Reaches ts before p) (ha : Accepted ts found) :
    ∀ (i j : Nat) (f g : Function), i < j → p.functions[i]? = some f → p.functions[j]? = some g →
      f.headEnd ≤ g.index := by
  induction h with
  | start => intro i j f g _ hf; simp [Pass.start] at hf
  | @step p before after x h hsplit ih =>
    intro i j f' g' hij hf' hg'
    have hstep := step_cases p ts.length before x after
    rcases hstep.function_cases hg' with ⟨rfl, hturn, _, _, _, rfl, _⟩ | ⟨g, hg, hindex, _⟩
    · rcases hstep.function_cases hf' with ⟨rfl, _⟩ | ⟨f, hf, _, hbody, hend⟩
      · exact absurd hij (Nat.lt_irrefl _)
      · rw [(h.tracks ha hsplit).headEnd_eq hf hbody hend]
        exact Nat.le_trans (h.functions_read ha i f hf).1 hturn
    · rcases hstep.function_cases hf' with ⟨rfl, _⟩ | ⟨f, hf, _, hbody, hend⟩
      · have := (Array.getElem?_eq_some_iff.mp hg).1
        omega
      · rw [(h.tracks ha hsplit).headEnd_eq hf hbody hend, hindex]
        exact ih i j f g hij hf hg

/-! ### Classes -/

theorem Reaches.classes_rise (h : Reaches ts before p) (ha : Accepted ts found) :
    ∀ (i j : Nat) (c d : Class), i < j → p.classes[i]? = some c → p.classes[j]? = some d →
      c.index < d.index := by
  induction h with
  | start => intro i j c d _ hc; simp [Pass.start] at hc
  | @step p before after x h hsplit ih =>
    intro i j c' d' hij hc' hd'
    have hstep := step_cases p ts.length before x after
    rcases hstep.class_cases hd' with ⟨rfl, _, hclass, _⟩ | ⟨d, hd, hindex, _⟩
    · rcases hstep.class_cases hc' with ⟨rfl, _⟩ | ⟨c, hc, hindex, _⟩
      · exact absurd hij (Nat.lt_irrefl _)
      · obtain ⟨_, _, _, _, _, _, _, _, hnew, _⟩ := class?_eq_some hclass
        have hbefore := (h.classes_named ha c (Array.mem_of_getElem? hc)).1
        have hx := ((ha.between hsplit).between x List.mem_cons_self).1
        omega
    · rcases hstep.class_cases hc' with ⟨rfl, _⟩ | ⟨c, hc, hindex', _⟩
      · have := (Array.getElem?_eq_some_iff.mp hd).1
        omega
      · rw [hindex, hindex']
        exact ih i j c d hij hc hd

/-- The bracket that ends a class pairs with the one that began its body. -/
theorem Reaches.pair_of_ends (h : Reaches ts before p) (ha : Accepted ts found)
    (hsplit : Lexeme.ofTokens false ts = before.reverse ++ x :: after) (hclose : x.isCloseBracket)
    (hhead : p.scopes.head? = some (.classBody id))
    (hc' : (p.step ts.length before x after).classes[id]? = some c') :
    (c'.bodyStarts, c'.bodyEnds) ∈ found := by
  obtain ⟨o, _, hopened, d, hd, hbegins⟩ := (h.tracks ha hsplit).innermost hhead
  obtain ⟨o', _, hopened', hpair⟩ := ha.closing hsplit hclose
  obtain ⟨scopes, hscopes⟩ := List.head?_eq_some_iff.mp hhead
  have hclasses := ((step_cases p ts.length before x after).ends hclose hscopes).1
  rw [hopened] at hopened'
  rw [← (List.cons.inj hopened').1, ← hbegins] at hpair
  rw [hclasses] at hc'
  change (p.classes.modify id _)[id]? = some c' at hc'
  rw [Array.getElem?_modify, if_pos rfl, hd] at hc'
  cases hc'
  exact hpair

/-- What has become of the body of a class. -/
inductive ClassStage (found : List (Nat × Nat)) (p : Pass) (i id : Nat) (c : Class) : Prop where
  | announced (hlookup : p.bodies.lookup c.bodyStarts = some (.classBody id))
  | inside (hscope : .classBody id ∈ p.scopes)
  | ended (hpair : (c.bodyStarts, c.bodyEnds) ∈ found)
  /-- A record that was read later has the bracket. -/
  | taken {scope : Scope} (htakes : p.Takes c.index i c.bodyStarts scope)

theorem Reaches.classStage (h : Reaches ts before p) (ha : Accepted ts found) :
    ∀ (id : Nat) (c : Class), p.classes[id]? = some c → p.ClassStage found (reach before) id c := by
  induction h with
  | start => intro id c hc; simp [Pass.start] at hc
  | @step p before after x h hsplit ih =>
    intro id c' hc'
    have hstep := step_cases p ts.length before x after
    have hrising := ha.between hsplit
    have hx := (hrising.between x List.mem_cons_self).1
    rcases hstep.class_cases hc' with ⟨_, _, _, hbodies⟩ | ⟨c, hc, hindex, hstart, hend, _⟩
    · refine .announced ?_
      rw [hbodies]
      exact List.lookup_cons_self
    by_cases hends : x.isCloseBracket ∧ p.scopes.head? = some (.classBody id)
    · exact .ended (h.pair_of_ends ha hsplit hends.1 hends.2 hc')
    · have hend : c'.bodyEnds = c.bodyEnds := hend.resolve_right hends
      cases ih id c hc with
      | announced hlookup =>
        rw [← hstart] at hlookup
        rcases hstep.lookup_bodies hrising.tail hlookup with hkept | hscope | ⟨_, _, scope, htakes⟩
        · exact .announced hkept
        · exact .inside hscope
        · have hbefore := (h.classes_named ha c (Array.mem_of_getElem? hc)).1
          exact .taken (htakes c'.index (by omega))
      | inside hscope => exact .inside ((hstep.mem_scopes hscope).resolve_right hends)
      | ended hpair => exact .ended (by rwa [hstart, hend])
      | taken htakes =>
        rw [← hindex, ← hstart] at htakes
        exact .taken ((hstep.takes hx htakes).mono (Nat.le_succ_of_le hx))

/-- A method is declared while the body of its class is the innermost bracket. -/
theorem Reaches.methods_inside (h : Reaches ts before p) (ha : Accepted ts found) :
    ∀ (id : Nat) (c : Class), p.classes[id]? = some c → ∀ m ∈ c.methods, ∃ f e,
      p.functions[m]? = some f ∧ c.bodyStarts < f.index ∧ f.index < e ∧
        (c.bodyStarts, e) ∈ found := by
  induction h with
  | start => intro id c hc; simp [Pass.start] at hc
  | @step p before after x h hsplit ih =>
    intro id c' hc' m hm
    have hstep := step_cases p ts.length before x after
    rcases hstep.class_cases hc' with ⟨_, _, hclass, _⟩ | ⟨c, hc, _, hstart, _, hmethods⟩
    · obtain ⟨_, _, _, _, _, _, _, _, _, _, _, _, hnone⟩ := class?_eq_some hclass
      rw [hnone] at hm
      contradiction
    have hold (hm : m ∈ c.methods) : ∃ f e, (p.step ts.length before x after).functions[m]? = some f ∧
        c'.bodyStarts < f.index ∧ f.index < e ∧ (c'.bodyStarts, e) ∈ found := by
      obtain ⟨f, e, hf, hfrom, hto, hpair⟩ := ih id c hc m hm
      obtain ⟨f', hf', hindex⟩ := hstep.holds_functions (P := (·.index = f.index))
        (fun _ _ hf => hf) ⟨f, hf, rfl⟩
      rw [hstart]
      exact ⟨f', e, hf', hindex ▸ hfrom, hindex ▸ hto, hpair⟩
    rcases hmethods with hmethods | ⟨hbody, hmethods, hkind, _, header, _, hfunctions⟩
    · exact hold (hmethods ▸ hm)
    have hclose : x.isCloseBracket = false :=
      Lexeme.not_isCloseBracket_of_kind (Lexeme.not_punct_of_isIdentifier hkind)
    rw [hmethods] at hm
    rcases List.mem_append.mp hm with hm | hm
    · exact hold hm
    rw [List.mem_singleton.mp hm]
    obtain ⟨scopes, hscopes⟩ := scopes_of_classBody hbody
    obtain ⟨o, _, hopened, d, hd, hbegins⟩ := (h.tracks ha hsplit).innermost
      (List.head?_eq_some_iff.mpr ⟨scopes, hscopes⟩)
    rw [hc, Option.some.injEq] at hd
    rw [← hd, ← hstart] at hbegins
    have hmem := ha.mem_opened_iff (k := o.index) hsplit
    rw [hopened] at hmem
    obtain ⟨e, hpair, hlt, hle⟩ := hmem.mp (List.mem_map_of_mem List.mem_cons_self)
    have hne := ha.ne_of_mem hsplit hclose hpair
    have hindex : (p.functionRecord x.index header).index = x.index := rfl
    refine ⟨p.functionRecord x.index header, e, ?_, by omega, by omega, hbegins ▸ hpair⟩
    rw [hfunctions]
    exact Array.getElem?_push_size

/-! ### Behind the pass -/

/-- No bracket closes where the header of a function ends. -/
theorem headEnd_of_final (ha : Accepted ts found) (hf : (final ts).functions[id]? = some f)
    (k : Nat) : (k, f.headEnd) ∉ found := by
  obtain ⟨_, y, hy, hindex, hclose⟩ := (reaches_final ts).functions_read ha id f hf
  obtain ⟨before, after, hsplit⟩ := List.append_of_mem hy
  rw [← List.reverse_reverse before] at hsplit
  rw [← hindex]
  exact fun hpair => ha.ne_of_mem hsplit hclose hpair rfl

theorem ended_of_final (ha : Accepted ts found) (hf : (final ts).functions[id]? = some f) :
    Ended ts found f := by
  cases (reaches_final ts).functionStage ha id f hf with
  | announced _ hlookup =>
    rw [bodies_final ha] at hlookup
    contradiction
  | inside hscope =>
    rw [scopes_final ha] at hscope
    contradiction
  | ended hended => exact hended

/-- The body of a class is a pair of brackets, unless another record has its bracket. -/
theorem pair_or_takes_of_final (ha : Accepted ts found) (hc : (final ts).classes[id]? = some c) :
    (c.bodyStarts, c.bodyEnds) ∈ found ∨
      ∃ scope, (final ts).Takes c.index ts.length c.bodyStarts scope := by
  have hreaches := reaches_final ts
  cases hreaches.classStage ha id c hc with
  | announced hlookup =>
    rw [bodies_final ha] at hlookup
    contradiction
  | inside hscope =>
    rw [scopes_final ha] at hscope
    contradiction
  | ended hpair => exact Or.inl hpair
  | taken htakes => exact Or.inr ⟨_, htakes.mono (ha.reach_le (final_split ts))⟩

end Pass

/-! ### Extents of functions -/

/-- The extent of a function whose header ends inside a pair of brackets ends inside it. -/
theorem Ended.lt (h : Ended ts found f) (ha : Accepted ts found) {o e : Nat} (hpair : (o, e) ∈ found)
    (hfrom : o < f.headEnd) (hto : f.headEnd < e) : f.bodyEnds < e := by
  unfold Function.headEnd at hfrom hto
  cases h with
  | header hbody => rwa [hbody] at hto
  | expression hsplit hopen hclose hbody hend =>
    rw [hbody] at hfrom hto
    rw [hend]
    exact ha.expressionEnd_lt hsplit hopen hclose hpair hfrom hto
  | block hbody hinner =>
    rw [hbody] at hfrom hto
    exact ha.nested hpair hinner hfrom hto

/-- The extent of a function whose header ends inside the body of another one ends inside it. -/
theorem Ended.le (h : Ended ts found f) (ha : Accepted ts found) {g : Function}
    (houter : Ended ts found g) (hfrom : g.headEnd < f.headEnd) (hto : f.headEnd ≤ g.bodyEnds)
    (hhead : ∀ k, (k, f.headEnd) ∉ found) : f.bodyEnds ≤ g.bodyEnds := by
  cases houter with
  | header hbody =>
    unfold Function.headEnd at hfrom
    rw [hbody] at hfrom
    exact absurd hto (Nat.not_le_of_lt hfrom)
  | @block k hbody hpair =>
    have hstart : g.headEnd = k := by
      unfold Function.headEnd
      rw [hbody]
      rfl
    have hne : f.headEnd ≠ g.bodyEnds := fun heq => hhead k (heq ▸ hpair)
    exact Nat.le_of_lt (h.lt ha hpair (hstart ▸ hfrom) (by omega))
  | expression hsplit hopen hclose hbody hend =>
    unfold Function.headEnd at hfrom hto
    rw [hbody] at hfrom
    rw [hend] at hto ⊢
    cases h with
    | header hnone => rwa [hnone] at hto
    | expression hsplit' hopen' hclose' hbody' hend' =>
      rw [hbody'] at hfrom hto
      rw [hend']
      exact ha.expressionEnd_le hsplit hopen hclose hsplit' hopen' hclose' hfrom hto
    | block hbody' hpair =>
      rw [hbody'] at hfrom hto
      exact ha.le_expressionEnd hsplit hopen hclose hpair hfrom hto

end Outline

end PhpLint
