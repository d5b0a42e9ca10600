import PhpLint.Model.Outline
import PhpLint.Proofs.Model.Signature

/-!
What every step of the pass over a file keeps: recorded extents lie inside the file in the order
of their parts, and the records that open and announced brackets refer to exist.
-/
namespace PhpLint.Outline

open PhpLint.Bracket (Indexed)
open Lexeme (Rising ahead behind)

/-! ### Records -/

/-- A record exists and has a property. -/
def Holds {α : Type} (xs : Array α) (P : α → Prop) (i : Nat) : Prop :=
  ∃ a, xs[i]? = some a ∧ P a

section Holds

variable {α : Type} {xs : Array α} {P : α → Prop} {i : Nat}

theorem Holds.lt (h : Holds xs P i) : i < xs.size := by
  obtain ⟨a, ha, _⟩ := h
  exact (Array.getElem?_eq_some_iff.mp ha).1

theorem Holds.imp {Q : α → Prop} (h : Holds xs P i) (himp : ∀ a, P a → Q a) : Holds xs Q i := by
  obtain ⟨a, ha, hP⟩ := h
  exact ⟨a, ha, himp a hP⟩

theorem Holds.modify (h : Holds xs P i) (j : Nat) {f : α → α} (hf : ∀ a, P a → P (f a)) :
    Holds (xs.modify j f) P i := by
  obtain ⟨a, ha, hP⟩ := h
  by_cases hj : j = i
  · refine ⟨f a, ?_, hf a hP⟩
    rw [Array.getElem?_modify, if_pos hj, ha]
    rfl
  · refine ⟨a, ?_, hP⟩
    rw [Array.getElem?_modify, if_neg hj, ha]

theorem Holds.push (h : Holds xs P i) (a : α) : Holds (xs.push a) P i := by
  obtain ⟨b, hb, hP⟩ := h
  have hlt := (Array.getElem?_eq_some_iff.mp hb).1
  exact ⟨b, by rw [Array.getElem?_push, if_neg (by omega), hb], hP⟩

theorem holds_push {a : α} (h : P a) : Holds (xs.push a) P xs.size :=
  ⟨a, Array.getElem?_push_size, h⟩

theorem forall_modify (h : ∀ a ∈ xs, P a) (j : Nat) {f : α → α}
    (hf : ∀ a, xs[j]? = some a → P a → P (f a)) : ∀ a ∈ xs.modify j f, P a := by
  intro a ha
  obtain ⟨i, hi⟩ := Array.mem_iff_getElem?.mp ha
  rw [Array.getElem?_modify] at hi
  split at hi
  · rename_i hj
    obtain ⟨b, hb, rfl⟩ := Option.map_eq_some_iff.mp hi
    exact hf b (hj ▸ hb) (h b (Array.mem_of_getElem? hb))
  · exact h a (Array.mem_of_getElem? hi)

theorem forall_push (h : ∀ a ∈ xs, P a) {b : α} (hb : P b) : ∀ a ∈ xs.push b, P a := by
  intro a ha
  rcases Array.mem_push.mp ha with ha | rfl
  · exact h a ha
  · exact hb

end Holds

/-! ### Sound states -/

/-- The extent of a class lies in a file of so many tokens. -/
structure ClassFits (size : Nat) (c : Class) : Prop where
  index : c.index < c.bodyStarts
  body : c.bodyStarts ≤ c.bodyEnds
  size : c.bodyEnds < size

/-- The extent of a function lies in a file of so many tokens. -/
structure FunctionFits (size : Nat) (f : Function) : Prop where
  index : f.index < f.bodyEnds
  body : ∀ b, f.bodyStarts = some b → f.index < b ∧ b ≤ f.bodyEnds
  size : f.bodyEnds < size

namespace Pass

/--
What a bracket at `k` refers to exists. A body does not start behind the bracket, and a namespace
starts before token `i`.
-/
def Refers (p : Pass) (i k : Nat) : Scope → Prop
  | .block => True
  | .classBody id => Holds p.classes (·.bodyStarts ≤ k) id
  | .functionBody id => Holds p.functions (fun f => ∃ b, f.bodyStarts = some b ∧ b ≤ k) id
  | .namespaceBody record => Holds p.namespaces (·.index < i) record

/-- A state of the pass in front of token `i`, in a file of so many tokens. -/
structure Sound (p : Pass) (size i : Nat) : Prop where
  classes : ∀ c ∈ p.classes, ClassFits size c
  functions : ∀ f ∈ p.functions, FunctionFits size f
  scopes : ∀ scope ∈ p.scopes, p.Refers i i scope
  bodies : ∀ body ∈ p.bodies, p.Refers i body.1 body.2

/-- Whatever a bracket refers to is kept. -/
structure Keeps (p p' : Pass) (i : Nat) : Prop where
  classes : ∀ k id, Holds p.classes (·.bodyStarts ≤ k) id → Holds p'.classes (·.bodyStarts ≤ k) id
  functions : ∀ k id, Holds p.functions (fun f => ∃ b, f.bodyStarts = some b ∧ b ≤ k) id →
    Holds p'.functions (fun f => ∃ b, f.bodyStarts = some b ∧ b ≤ k) id
  namespaces : ∀ record, Holds p.namespaces (·.index < i) record →
    Holds p'.namespaces (·.index < i) record

variable {p p' : Pass} {size i j k : Nat} {scope : Scope} {x : Lexeme} {r s : List Lexeme}

theorem Keeps.refl (p : Pass) (i : Nat) : p.Keeps p i :=
  ⟨fun _ _ h => h, fun _ _ h => h, fun _ h => h⟩

theorem Keeps.trans {p'' : Pass} (h : p.Keeps p' i) (h' : p'.Keeps p'' i) : p.Keeps p'' i :=
  ⟨fun k id hc => h'.classes k id (h.classes k id hc),
    fun k id hf => h'.functions k id (h.functions k id hf),
    fun record hn => h'.namespaces record (h.namespaces record hn)⟩

theorem Refers.mono (h : p.Refers i k scope) {j l : Nat} (hi : i ≤ j) (hk : k ≤ l) :
    p.Refers j l scope := by
  cases scope with
  | block => trivial
  | classBody id => exact Holds.imp h fun c hc => Nat.le_trans hc hk
  | functionBody id => exact Holds.imp h fun f ⟨b, hb, hle⟩ => ⟨b, hb, Nat.le_trans hle hk⟩
  | namespaceBody record => exact Holds.imp h fun ns hns => Nat.lt_of_lt_of_le hns hi

theorem Refers.keep (h : p.Refers i k scope) (hkeeps : p.Keeps p' i) : p'.Refers i k scope := by
  cases scope with
  | block => trivial
  | classBody id => exact hkeeps.classes k id h
  | functionBody id => exact hkeeps.functions k id h
  | namespaceBody record => exact hkeeps.namespaces record h

theorem Sound.mono (h : p.Sound size i) (hij : i ≤ j) : p.Sound size j where
  classes := h.classes
  functions := h.functions
  scopes scope hscope := (h.scopes scope hscope).mono hij hij
  bodies body hbody := (h.bodies body hbody).mono hij (Nat.le_refl _)

/-- A state that keeps what brackets refer to keeps the brackets. -/
theorem Sound.keep (h : p.Sound size i) (hkeeps : p.Keeps p' i) (hscopes : p'.scopes ⊆ p.scopes)
    (hbodies : p'.bodies ⊆ p.bodies) (hclasses : ∀ c ∈ p'.classes, ClassFits size c)
    (hfunctions : ∀ f ∈ p'.functions, FunctionFits size f) : p'.Sound size i where
  classes := hclasses
  functions := hfunctions
  scopes scope hscope := (h.scopes scope (hscopes hscope)).keep hkeeps
  bodies body hbody := (h.bodies body (hbodies hbody)).keep hkeeps

theorem sound_start (size : Nat) : Pass.start.Sound size 0 := by
  refine ⟨?_, ?_, ?_, ?_⟩ <;> intro _ h <;> simp [Pass.start] at h

/-- The class around exists. -/
theorem Sound.classBody_lt (h : p.Sound size i) {id : Nat} (hid : p.classBody = some id) :
    id < p.classes.size := by
  unfold classBody at hid
  split at hid
  · rename_i scopes hscopes
    cases hid
    exact Holds.lt (h.scopes (.classBody id) (hscopes ▸ List.mem_cons_self))
  · contradiction

theorem Sound.enclosingClass_lt (h : p.Sound size i) {id : Nat}
    (hid : p.enclosingClass = some id) : id < p.classes.size := by
  obtain ⟨scope, hscope, hid⟩ := List.exists_of_findSome?_eq_some hid
  cases scope with
  | classBody id' =>
    cases hid
    exact Holds.lt (h.scopes _ hscope)
  | _ => contradiction

/-! ### Brackets -/

theorem Sound.newStatement (h : p.Sound size i) : p.newStatement.Sound size i :=
  ⟨h.classes, h.functions, h.scopes, h.bodies⟩

theorem Sound.skipTo (h : p.Sound size i) (s : List Lexeme) : (p.skipTo size s).Sound size i :=
  ⟨h.classes, h.functions, h.scopes, h.bodies⟩

theorem Sound.announce (h : p.Sound size i) (hscope : p.Refers i k scope) :
    (p.announce k scope).Sound size i where
  classes := h.classes
  functions := h.functions
  scopes := h.scopes
  bodies body hbody := by
    rcases List.mem_cons.mp hbody with rfl | hbody
    · exact hscope
    · exact h.bodies body hbody

theorem mem_of_lookup {l : List (Nat × Scope)} {k : Nat} (h : l.lookup k = some scope) :
    (k, scope) ∈ l := by
  obtain ⟨before, after, rfl, _⟩ := List.lookup_eq_some_iff.mp h
  simp

theorem Sound.openBracket (h : p.Sound size x.index) : (p.openBracket x).Sound size x.index := by
  have hscope : p.Refers x.index x.index ((p.bodies.lookup x.index).getD .block) := by
    cases hlookup : p.bodies.lookup x.index with
    | none => trivial
    | some scope => exact h.bodies _ (mem_of_lookup hlookup)
  have hopened (p' : Pass) (hp : p'.Sound size x.index)
      (hscope : p'.Refers x.index x.index ((p.bodies.lookup x.index).getD .block)) :
      Sound { p' with
        scopes := (p.bodies.lookup x.index).getD .block :: p'.scopes
        bodies := p'.bodies.filter (·.1 != x.index) } size x.index := by
    refine ⟨hp.classes, hp.functions, ?_, ?_⟩
    · intro scope hs
      rcases List.mem_cons.mp hs with rfl | hs
      · exact hscope
      · exact hp.scopes scope hs
    · intro body hbody
      exact hp.bodies body (List.mem_filter.mp hbody).1
  unfold Pass.openBracket
  dsimp only
  split
  · exact hopened _ h.newStatement hscope
  · exact hopened _ h hscope

theorem Sound.endScope (h : p.Sound size i) (hi : i < size) (hscope : p.Refers i i scope) :
    (p.endScope i scope).Sound size i := by
  cases scope with
  | block => exact h
  | classBody id =>
    obtain ⟨c, hc, hstart⟩ := hscope
    have hclasses := forall_modify h.classes id (f := ({ · with bodyEnds := i })) (by
      intro a ha hfits
      rw [hc, Option.some.injEq] at ha
      exact ⟨hfits.index, ha ▸ hstart, hi⟩)
    refine h.keep ⟨?_, fun _ _ hf => hf, fun _ hn => hn⟩ (fun _ hs => hs) (fun _ hb => hb) hclasses
      h.functions
    exact fun k id' hk => Holds.modify hk id fun _ hle => hle
  | functionBody id =>
    obtain ⟨f, hf, b, hb, hstart⟩ := hscope
    have hfunctions := forall_modify h.functions id (f := ({ · with bodyEnds := i })) (by
      intro a ha hfits
      rw [hf, Option.some.injEq] at ha
      have hbody := hfits.body b (ha ▸ hb)
      refine ⟨Nat.lt_of_lt_of_le hbody.1 hstart, ?_, hi⟩
      intro b' hb'
      have hsame : b = b' := Option.some.inj (hb.symm.trans (ha ▸ hb'))
      exact ⟨hsame ▸ hbody.1, hsame ▸ hstart⟩)
    refine h.keep ⟨fun _ _ hc => hc, ?_, fun _ hn => hn⟩ (fun _ hs => hs) (fun _ hb => hb) h.classes
      hfunctions
    exact fun k id' hk => Holds.modify hk id fun _ hle => hle
  | namespaceBody record =>
    refine h.keep ⟨fun _ _ hc => hc, fun _ _ hf => hf, ?_⟩ (fun _ hs => hs) (fun _ hb => hb) h.classes
      h.functions
    intro record' hr
    exact Holds.push (Holds.modify (f := ({ · with bodyEnds := some i })) hr record
      fun _ hlt => hlt) _

theorem Sound.closeBracket (h : p.Sound size x.index) (hx : x.index < size) :
    (p.closeBracket x).Sound size x.index := by
  unfold Pass.closeBracket
  cases hscopes : p.scopes with
  | nil => exact h
  | cons scope scopes =>
    have hrest : Sound { p with scopes } size x.index := by
      refine ⟨h.classes, h.functions, ?_, h.bodies⟩
      intro scope' hs
      exact h.scopes scope' (hscopes ▸ List.mem_cons_of_mem scope hs)
    have hscope : Refers { p with scopes } x.index x.index scope :=
      h.scopes scope (hscopes ▸ List.mem_cons_self)
    have hended := hrest.endScope hx hscope
    dsimp only
    split
    · exact hended.newStatement
    · exact hended

theorem scopes_endScope (p : Pass) (i : Nat) (scope : Scope) :
    (p.endScope i scope).scopes = p.scopes := by
  cases scope <;> rfl

theorem length_scopes_closeBracket (p : Pass) (x : Lexeme) :
    (p.closeBracket x).scopes.length = p.scopes.length - 1 := by
  unfold Pass.closeBracket
  cases hscopes : p.scopes with
  | nil =>
    dsimp only
    rw [hscopes]
    rfl
  | cons scope scopes =>
    have hkept := scopes_endScope { p with scopes } x.index scope
    dsimp only
    split
    · exact congrArg List.length hkept
    · exact congrArg List.length hkept

/-! ### Namespaces -/

/-- Only a record that starts at token `i` or later is dropped. -/
theorem keeps_endNamespace (p : Pass) (i : Nat) : p.Keeps (p.endNamespace i) i := by
  unfold Pass.endNamespace
  cases hback : p.namespaces.back? with
  | none => exact Keeps.refl p i
  | some last =>
    rw [Array.back?_eq_getElem?] at hback
    have hpop {record : Nat} (hne : record ≠ p.namespaces.size - 1)
        (h : Holds p.namespaces (·.index < i) record) :
        Holds p.namespaces.pop (·.index < i) record := by
      obtain ⟨ns, hns, hlt⟩ := h
      refine ⟨ns, ?_, hlt⟩
      rw [Array.getElem?_pop, if_pos]
      · exact hns
      · have := (Array.getElem?_eq_some_iff.mp hns).1
        omega
    dsimp only
    split
    · rename_i hle
      refine ⟨fun _ _ hc => hc, fun _ _ hf => hf, fun record hn => hpop ?_ hn⟩
      rintro rfl
      obtain ⟨ns, hns, hlt⟩ := hn
      rw [hback, Option.some.injEq] at hns
      rw [hns] at hle
      omega
    · rename_i hlt
      refine ⟨fun _ _ hc => hc, fun _ _ hf => hf, fun record hn => ?_⟩
      by_cases hrecord : record = p.namespaces.size - 1
      · have hsize : p.namespaces.pop.size = record := by rw [Array.size_pop, hrecord]
        rw [← hsize]
        exact holds_push (Nat.lt_of_not_le hlt)
      · exact (hpop hrecord hn).push _

theorem exists_endNamespace_eq (p : Pass) (i : Nat) :
    ∃ namespaces, p.endNamespace i = { p with namespaces } := by
  unfold Pass.endNamespace
  split
  · exact ⟨p.namespaces, rfl⟩
  · split
    · exact ⟨_, rfl⟩
    · exact ⟨_, rfl⟩

theorem Sound.endNamespace (h : p.Sound size i) : (p.endNamespace i).Sound size i := by
  have hkeeps := keeps_endNamespace p i
  obtain ⟨namespaces, heq⟩ := exists_endNamespace_eq p i
  rw [heq] at hkeeps ⊢
  exact h.keep hkeeps (fun _ hs => hs) (fun _ hb => hb) h.classes h.functions

theorem Sound.namespaceDeclaration (h : p.Sound size i) (s : List Lexeme) :
    (p.namespaceDeclaration size i s).Sound size (i + 1) := by
  have hlater := h.mono (Nat.le_succ i)
  unfold Pass.namespaceDeclaration
  dsimp only
  split
  · exact hlater
  · rename_i x r _
    split
    · exact hlater
    · have hended := h.endNamespace.mono (Nat.le_succ i)
      have hpushed (ns : Namespace) : Sound { p.endNamespace i with
          namespaces := (p.endNamespace i).namespaces.push ns
          skipUntil := x.index } size (i + 1) :=
        hended.keep ⟨fun _ _ hc => hc, fun _ _ hf => hf, fun _ hn => hn.push ns⟩ (fun _ hs => hs)
          (fun _ hb => hb) hended.classes hended.functions
      split
      · refine (hpushed _).announce ?_
        exact holds_push (Nat.lt_succ_self i)
      · exact hpushed _

theorem Sound.importStatement (h : p.Sound size i) (s : List Lexeme) :
    (p.importStatement size s).Sound size i := by
  unfold Pass.importStatement
  split
  · exact h
  dsimp only
  apply Sound.skipTo
  refine h.keep ⟨fun _ _ hc => hc, fun _ _ hf => hf, ?_⟩ (fun _ hs => hs) (fun _ hb => hb) h.classes
    h.functions
  exact fun _ hn => hn.modify _ fun _ hlt => hlt

/-! ### Classes -/

/-- A change of a class that leaves its extent alone. -/
theorem Sound.modifyClass (h : p.Sound size i) (id : Nat) {f : Class → Class}
    (hindex : ∀ c, (f c).index = c.index) (hstart : ∀ c, (f c).bodyStarts = c.bodyStarts)
    (hend : ∀ c, (f c).bodyEnds = c.bodyEnds) :
    Sound { p with classes := p.classes.modify id f } size i := by
  refine h.keep ⟨?_, fun _ _ hf => hf, fun _ hn => hn⟩ (fun _ hs => hs) (fun _ hb => hb) ?_ h.functions
  · intro k id' hc
    exact Holds.modify hc id fun c hle => (hstart c).symm ▸ hle
  · refine forall_modify h.classes id fun c _ hfits => ⟨?_, ?_, ?_⟩
    · rw [hindex, hstart]
      exact hfits.index
    · rw [hstart, hend]
      exact hfits.body
    · rw [hend]
      exact hfits.size

theorem Sound.traitUse (h : p.Sound size i) (id : Nat) (s : List Lexeme) :
    (p.traitUse size id s).Sound size i := by
  unfold Pass.traitUse
  apply Sound.skipTo
  apply h.modifyClass <;> exact fun _ => rfl

theorem Sound.propertyDeclaration (h : p.Sound size i) (id : Nat) (before : List Lexeme)
    (x : Lexeme) : (p.propertyDeclaration id before x).Sound size i := by
  unfold Pass.propertyDeclaration
  have htyped (type : Option String) : Sound { p with propertyType := type } size i :=
    ⟨h.classes, h.functions, h.scopes, h.bodies⟩
  split
  · apply (htyped _).modifyClass <;> exact fun _ => rfl
  · apply h.modifyClass <;> exact fun _ => rfl

theorem Sound.constantDeclaration (h : p.Sound size i) (s : List Lexeme) :
    (p.constantDeclaration s).Sound size i := by
  unfold Pass.constantDeclaration
  dsimp only
  split
  · exact h
  · split
    · have hplain : Sound { p with modifiers := .empty } size i :=
        ⟨h.classes, h.functions, h.scopes, h.bodies⟩
      apply hplain.modifyClass <;> exact fun _ => rfl
    · exact ⟨h.classes, h.functions, h.scopes, h.bodies⟩

theorem className?_suffix {anonymous : Bool} {nameIndex : Option Nat} {name : String}
    {after : List Lexeme} (h : p.className? anonymous s = some (nameIndex, name, after)) :
    after <:+ s := by
  unfold Pass.className? at h
  split at h
  · contradiction
  · rename_i x r
    split at h
    · split at h
      · obtain ⟨rest, hrest, heq⟩ := Option.map_eq_some_iff.mp h
        cases heq
        exact (Lexeme.afterClosing_suffix hrest).trans (List.suffix_cons x r)
      · cases h
        exact List.suffix_rfl
    · split at h
      · dsimp only at h
        split at h
        · rename_i colon y after'
          cases h
          split
          · exact ((List.suffix_cons y after').trans (List.suffix_cons colon _)).trans
              (List.suffix_cons x _)
          · exact List.suffix_cons x _
        · cases h
          exact List.suffix_cons x _
      · contradiction

theorem namesAfter?_suffix {keyword : String} {names : List String} {after : List Lexeme}
    (h : namesAfter? keyword s = some (names, after)) : after <:+ s := by
  unfold Pass.namesAfter? at h
  split at h
  · split at h
    · split at h
      · contradiction
      · have hafter := congrArg Prod.snd (Option.some.inj h)
        change (Lexeme.readNames _).2 = after at hafter
        rw [← hafter]
        exact (Lexeme.readNames_suffix _).trans (List.suffix_cons _ _)
    · cases h
      exact List.suffix_rfl
  · cases h
    exact List.suffix_rfl

/-- The body of a class starts behind its keyword. -/
theorem fits_of_class? {kind : Class.Kind} {anonymous : Bool} {c : Class}
    (hrising : Rising (i + 1) size s) (h : p.class? kind anonymous i s = some c) :
    ClassFits size c := by
  unfold Pass.class? at h
  obtain ⟨⟨nameIndex, name, s₁⟩, hname, h⟩ := Option.bind_eq_some_iff.mp h
  obtain ⟨⟨parents, s₂⟩, hparents, h⟩ := Option.bind_eq_some_iff.mp h
  obtain ⟨⟨interfaces, s₃⟩, hinterfaces, h⟩ := Option.bind_eq_some_iff.mp h
  obtain ⟨x, hx, h⟩ := Option.bind_eq_some_iff.mp h
  obtain ⟨-, -, h⟩ := Option.bind_eq_some_iff.mp h
  cases h
  have hsuffix := ((namesAfter?_suffix hinterfaces).trans (namesAfter?_suffix hparents)).trans
    (className?_suffix hname)
  have hbetween := hrising.between x (hsuffix.mem (List.mem_of_mem_head? hx))
  exact ⟨hbetween.1, Nat.le_refl _, hbetween.2⟩

theorem Sound.classDeclaration (h : p.Sound size i) (kind : Class.Kind) (anonymous : Bool)
    (hrising : Rising (i + 1) size s) : (p.classDeclaration kind anonymous i s).Sound size i := by
  unfold Pass.classDeclaration
  split
  · exact h
  · rename_i c hc
    have hfits := fits_of_class? hrising hc
    have hpushed : Sound { p with classes := p.classes.push c, modifiers := .empty } size i :=
      h.keep ⟨fun _ _ hc => hc.push c, fun _ _ hf => hf, fun _ hn => hn⟩ (fun _ hs => hs)
        (fun _ hb => hb) (forall_push h.classes hfits) h.functions
    exact hpushed.announce (holds_push (Nat.le_refl _))

/-! ### Functions -/

theorem Sound.addFunction (h : p.Sound size i) {isArrow : Bool} {header : Signature}
    (hrising : Rising (i + 1) size s) (hread : Signature.read? isArrow s = some header) :
    (p.addFunction i header).Sound size i := by
  obtain ⟨x, r, hsuffix, hat, hbody⟩ := Signature.read?_eq_some hread
  have hbetween := hrising.between x (hsuffix.mem List.mem_cons_self)
  have hends (e : Nat) (he : e = header.bodyAt ∨ header.body = .expression e) :
      header.bodyAt ≤ e ∧ e < size := by
    rw [hat] at he ⊢
    rcases he with rfl | hexpression
    · exact ⟨Nat.le_refl _, hbetween.2⟩
    · rw [hexpression] at hbody
      exact Signature.le_of_body?_expression (hrising.suffix hsuffix) hbody
  have hadded (classes : Array Class) (hclasses : Sound { p with classes } size i) (f : Function)
      (hfits : FunctionFits size f) : Sound { p with
        classes
        functions := p.functions.push f
        modifiers := .empty
        skipUntil := header.bodyAt } size i :=
    hclasses.keep ⟨fun _ _ hc => hc, fun _ _ hf => hf.push f, fun _ hn => hn⟩ (fun _ hs => hs)
      (fun _ hb => hb) hclasses.classes (forall_push h.functions hfits)
  have hmethod (classes : Array Class) (heq : classes = p.classes ∨ ∃ id name,
      classes = p.classes.modify id (addMethod · p.functions.size name header.parameters)) :
      Sound { p with classes } size i := by
    rcases heq with rfl | ⟨id, name, rfl⟩
    · exact h
    · apply h.modifyClass <;> exact fun _ => rfl
  have hfits (f : Function) (hf : f.index = i ∧ f.bodyStarts = (if header.body = .none then none
      else some header.bodyAt) ∧
      (f.bodyEnds = header.bodyAt ∨ header.body = .expression f.bodyEnds)) :
      FunctionFits size f := by
    obtain ⟨hindex, hstarts, hend⟩ := hf
    have hend := hends f.bodyEnds hend
    refine ⟨by omega, ?_, hend.2⟩
    intro b hb
    rw [hstarts] at hb
    split at hb
    · contradiction
    · cases hb
      omega
  unfold Pass.addFunction
  dsimp only
  split
  · rename_i hblock
    apply Sound.announce
    · apply hadded
      · apply hmethod
        split
        · exact Or.inr ⟨_, _, rfl⟩
        · exact Or.inl rfl
      · apply hfits
        exact ⟨rfl, by cases header.body <;> rfl, by cases header.body <;> simp⟩
    · apply holds_push
      rw [hblock]
      exact ⟨_, rfl, Nat.le_refl _⟩
  · apply hadded
    · apply hmethod
      split
      · exact Or.inr ⟨_, _, rfl⟩
      · exact Or.inl rfl
    · apply hfits
      exact ⟨rfl, by cases header.body <;> rfl, by cases header.body <;> simp⟩

theorem Sound.functionDeclaration (h : p.Sound size i) (isArrow : Bool)
    (hrising : Rising (i + 1) size s) : (p.functionDeclaration isArrow i s).Sound size i := by
  unfold Pass.functionDeclaration
  split
  · rename_i header hread
    exact h.addFunction hrising hread
  · exact h

/-! ### Steps -/

theorem Sound.modifier (h : p.Sound size i) (word : String) : (p.modifier word).Sound size i := by
  unfold Pass.modifier
  dsimp only
  split
  · exact h
  · split
    · exact ⟨h.classes, h.functions, h.scopes, h.bodies⟩
    · exact h

theorem Sound.keyword (h : p.Sound size x.index) (before : List Lexeme)
    (hrising : Rising (x.index + 1) size r) :
    (p.keyword size before x r).Sound size (x.index + 1) := by
  have hlater := Nat.le_succ x.index
  unfold Pass.keyword
  dsimp only
  split
  · split
    · exact h.namespaceDeclaration r
    · exact h.mono hlater
  · split
    · split
      · exact h.mono hlater
      · exact (h.traitUse _ r).mono hlater
    · split
      · exact (h.importStatement r).mono hlater
      · exact h.mono hlater
  · exact (h.classDeclaration _ _ hrising).mono hlater
  · exact (h.classDeclaration _ _ hrising).mono hlater
  · exact (h.classDeclaration _ _ hrising).mono hlater
  · exact (h.functionDeclaration _ hrising).mono hlater
  · exact (h.functionDeclaration _ hrising).mono hlater
  · exact (h.constantDeclaration r).mono hlater
  · exact (h.modifier _).mono hlater

theorem Sound.statement (h : p.Sound size x.index) (before : List Lexeme)
    (hrising : Rising (x.index + 1) size r) :
    (p.statement size before x r).Sound size (x.index + 1) := by
  have hlater := Nat.le_succ x.index
  unfold Pass.statement
  split
  · exact h.newStatement.mono hlater
  · split
    · split
      · exact (h.propertyDeclaration _ before x).mono hlater
      · exact h.mono hlater
    · split
      · exact (h.classDeclaration _ _ hrising).mono hlater
      · exact h.mono hlater
    · exact h.keyword before hrising
    · exact h.mono hlater

/-- What a lexeme does to the scopes. -/
def bracket (p : Pass) (x : Lexeme) : Pass :=
  if x.isOpenBracket then p.openBracket x
  else if x.isCloseBracket then p.closeBracket x
  else p

theorem step_eq (p : Pass) (size : Nat) (before : List Lexeme) (x : Lexeme) (r : List Lexeme) :
    p.step size before x r = if (p.bracket x).skipUntil ≤ x.index then
      (p.bracket x).statement size before x r else p.bracket x :=
  rfl

theorem Sound.bracket (h : p.Sound size x.index) (hx : x.index < size) :
    (p.bracket x).Sound size x.index := by
  unfold Pass.bracket
  split
  · exact h.openBracket
  · split
    · exact h.closeBracket hx
    · exact h

/-- One step keeps the state sound. -/
theorem Sound.step (h : p.Sound size x.index) (hx : x.index < size) (before : List Lexeme)
    (hrising : Rising (x.index + 1) size r) :
    (p.step size before x r).Sound size (x.index + 1) := by
  rw [step_eq]
  split
  · exact (h.bracket hx).statement before hrising
  · exact (h.bracket hx).mono (Nat.le_succ _)

/-- The whole pass keeps the state sound. -/
theorem Sound.run (h : p.Sound size i) (hi : i ≤ size) (before : List Lexeme)
    (hrising : Rising i size s) : (p.run size before s).Sound size size := by
  induction s generalizing p i before with
  | nil => exact h.mono hi
  | cons x r ih =>
    have hbetween := hrising.between x List.mem_cons_self
    exact ih ((h.mono hbetween.1).step hbetween.2 before hrising.tail) hbetween.2 _ hrising.tail

end Pass

end PhpLint.Outline
