import PhpLint.Proofs.Model.Place
import PhpLint.Proofs.Model.Bodies

/-!
White space and comments have no part in what a file declares. Two passes over files that differ in
them keep the same state, with the places of the one moved to those of the other.
-/
namespace PhpLint

/-! ### Moved declarations -/

def Property.move (f : Nat → Nat) (x : Property) : Property :=
  { x with index := f x.index }

def Constant.move (f : Nat → Nat) (x : Constant) : Constant :=
  { x with index := f x.index }

def Class.move (f : Nat → Nat) (c : Class) : Class :=
  { c with
    index := f c.index
    nameIndex := c.nameIndex.map f
    bodyStarts := f c.bodyStarts
    bodyEnds := f c.bodyEnds
    properties := c.properties.map (Property.move f)
    constants := c.constants.map (Constant.move f) }

def Function.move (f : Nat → Nat) (g : Function) : Function :=
  { g with
    index := f g.index
    nameIndex := g.nameIndex.map f
    bodyStarts := g.bodyStarts.map f
    bodyEnds := f g.bodyEnds
    parameters := g.parameters.map (Parameter.move f)
    usedVariables := g.usedVariables.map (Parameter.move f) }

/-- What of a namespace record is the same whatever the spaces. -/
structure Namespace.Shape where
  name : String
  imports : ImportMap
  start : Nat × Nat
  /-- The record does not end in front of its start. -/
  holds : Bool

def Namespace.shape (marks : List Nat) (ns : Namespace) : Shape :=
  ⟨ns.name, ns.imports, place marks ns.index, ns.bodyEnds.all (ns.index ≤ ·)⟩

/-! ### Places -/

variable {marks marks' : List Nat} {i j k l : Nat}

theorem lt_iff_lt_of_place (hi : i ∈ marks) (hj : j ∈ marks') (hij : place marks' j = place marks i)
    (hkl : place marks' l = place marks k) : j < l ↔ i < k := by
  rw [lt_iff_place hi, lt_iff_place hj, hij, hkl]

theorem gt_iff_gt_of_place (hi : i ∈ marks) (hj : j ∈ marks') (hij : place marks' j = place marks i)
    (hkl : place marks' l = place marks k) : l < j ↔ k < i := by
  rw [gt_iff_place hi, gt_iff_place hj, hij, hkl]

theorem map_modify_comp {α β γ : Type} {g : α → β} {k : β → γ} {e : α → α} {d : β → β}
    (h : ∀ x, k (g (e x)) = k (d (g x))) (xs : Array α) (i : Nat) :
    (xs.modify i e).map (k ∘ g) = ((xs.map g).modify i d).map k := by
  apply Array.ext_getElem?
  intro j
  rw [Array.getElem?_map, Array.getElem?_map, Array.getElem?_modify, Array.getElem?_modify,
    Array.getElem?_map]
  cases xs[j]? with
  | none => simp
  | some x =>
    split
    · exact congrArg some (h x)
    · rfl

theorem map_modify {α β : Type} {g : α → β} {e : α → α} {d : β → β} (h : ∀ x, g (e x) = d (g x))
    (xs : Array α) (i : Nat) : (xs.modify i e).map g = (xs.map g).modify i d := by
  have hcomp := map_modify_comp (k := fun y : β => y) h xs i
  rwa [Array.map_id_fun'] at hcomp

theorem lookup_place {α : Type} {entries : List (Nat × α)} (hi : i ∈ marks) :
    (entries.map fun entry => (place marks entry.1, entry.2)).lookup (place marks i) =
      entries.lookup i := by
  induction entries with
  | nil => rfl
  | cons entry entries ih =>
    obtain ⟨k, value⟩ := entry
    have heq : (place marks i == place marks k) = (i == k) := by
      simp only [beq_eq_beq, eq_iff_place hi]
    rw [List.map_cons, List.lookup_cons, List.lookup_cons, ih, heq]

theorem filter_place {α : Type} {entries : List (Nat × α)} (hi : i ∈ marks) :
    (entries.filter (·.1 != i)).map (fun entry => (place marks entry.1, entry.2)) =
      (entries.map fun entry => (place marks entry.1, entry.2)).filter
        (·.1 != place marks i) := by
  have hsame (entry : Nat × α) : (entry.1 != i) = (place marks entry.1 != place marks i) := by
    have heq : entry.1 = i ↔ place marks entry.1 = place marks i := by
      rw [eq_comm, eq_iff_place hi, eq_comm]
    rw [Bool.eq_iff_iff, bne_iff_ne, bne_iff_ne, ne_eq, ne_eq, heq]
  rw [List.filter_map]
  simp only [hsame]
  rfl

/-- A record that ends at a place. -/
def Namespace.Shape.endAt (last : Nat × Nat) (shape : Shape) : Shape :=
  { shape with holds := !decide (last.2 ≤ shape.start.1) }

theorem Namespace.shape_endAt (hi : i ∈ marks) (ns : Namespace) :
    Namespace.shape marks { ns with bodyEnds := some i } =
      (ns.shape marks).endAt (place marks i) := by
  have hlt := lt_iff_place (k := ns.index) hi
  have hholds : decide (ns.index ≤ i) = !decide ((place marks i).2 ≤ (place marks ns.index).1) := by
    rw [← decide_not, decide_eq_decide, ← hlt, Nat.not_lt]
  exact congrArg (Namespace.Shape.mk _ _ _) hholds

namespace Lexeme.Twins

variable {f line : Nat → Nat} {a b : List Token} {x : Lexeme}

theorem mem (hx : x ∈ ofTokens false a) : x.index ∈ starts a :=
  List.mem_append_left _ (List.mem_map_of_mem hx)

theorem mem_moved (h : Twins f line a b) (hx : x ∈ ofTokens false a) : f x.index ∈ starts b := by
  have hmoved : x.move f line ∈ ofTokens false b := by
    rw [h.lexemes]
    exact List.mem_map_of_mem hx
  exact mem hmoved

theorem lt_iff (h : Twins f line a b) (hx : x ∈ ofTokens false a)
    (hk : place (starts b) l = place (starts a) k) : f x.index < l ↔ x.index < k :=
  lt_iff_lt_of_place (mem hx) (h.mem_moved hx) (h.at_lexeme x hx) hk

theorem gt_iff (h : Twins f line a b) (hx : x ∈ ofTokens false a)
    (hk : place (starts b) l = place (starts a) k) : l < f x.index ↔ k < x.index :=
  gt_iff_gt_of_place (mem hx) (h.mem_moved hx) (h.at_lexeme x hx) hk

/-- There are tokens, if there is a lexeme. -/
theorem length_pos (h : Twins f line a b) (hx : x ∈ ofTokens false a) :
    0 < a.length ∧ 0 < b.length := by
  have hpos {ts : List Token} {y : Lexeme} (hy : y ∈ ofTokens false ts) : 0 < ts.length := by
    cases ts with
    | nil => contradiction
    | cons t ts => exact Nat.zero_lt_succ _
  refine ⟨hpos hx, hpos (y := x.move f line) ?_⟩
  rw [h.lexemes]
  exact List.mem_map_of_mem hx

theorem size_iff (h : Twins f line a b) (hk : place (starts b) l = place (starts a) k) :
    l < b.length ↔ k < a.length :=
  gt_iff_gt_of_place (List.mem_append_right _ List.mem_cons_self)
    (List.mem_append_right _ List.mem_cons_self) h.size hk

end Lexeme.Twins

namespace Outline

open Lexeme (Twins moveAll starts)

/-! ### Readings of the pass -/

namespace Pass

variable (f line : Nat → Nat)

theorem className?_move {p q : Pass} (hname : q.namespaceName = p.namespaceName) (anonymous : Bool)
    (s : List Lexeme) : q.className? anonymous (moveAll f line s) =
      (p.className? anonymous s).map fun (nameIndex, name, after) =>
        (nameIndex.map f, name, moveAll f line after) := by
  cases s with
  | nil => rfl
  | cons x r =>
    simp only [className?, moveAll, List.map_cons, Lexeme.move_toToken, Token.move_is,
      Token.move_isIdentifier, Token.move_text, Token.move_index, hname, Lexeme.afterClosing_move]
    cases anonymous with
    | true =>
      simp only [if_true]
      split
      · cases Lexeme.afterClosing r <;> rfl
      · rfl
    | false =>
      simp only [Bool.false_eq_true, if_false]
      split
      · match r with
        | [] => rfl
        | [y] => rfl
        | y :: z :: r =>
          simp only [List.map_cons, Lexeme.move_toToken, Token.move_is]
          split <;> rfl
      · rfl

theorem namesAfter?_move (keyword : String) (s : List Lexeme) :
    namesAfter? keyword (moveAll f line s) = (namesAfter? keyword s).map fun (names, after) =>
      (names, moveAll f line after) := by
  cases s with
  | nil => rfl
  | cons x r =>
    simp only [namesAfter?, moveAll, List.map_cons, Lexeme.move_toToken, Token.move_isKeyword,
      List.isEmpty_map, Lexeme.readNames_move]
    split
    · split <;> rfl
    · rfl

theorem class?_move {p q : Pass} (hname : q.namespaceName = p.namespaceName)
    (hmodifiers : q.modifiers = p.modifiers) (kind : Class.Kind) (anonymous : Bool) (i : Nat)
    (s : List Lexeme) : q.class? kind anonymous (f i) (moveAll f line s) =
      (p.class? kind anonymous i s).map (Class.move f) := by
  unfold class?
  rw [className?_move f line hname, hmodifiers]
  cases p.className? anonymous s with
  | none => rfl
  | some found =>
    simp only [Option.map_some, Option.bind_eq_bind, Option.bind_some, namesAfter?_move]
    cases namesAfter? "extends" found.2.2 with
    | none => rfl
    | some parents =>
      simp only [Option.map_some, Option.bind_some, namesAfter?_move]
      cases namesAfter? "implements" parents.2 with
      | none => rfl
      | some interfaces =>
        simp only [Option.map_some, Option.bind_some]
        cases interfaces.2 with
        | nil => rfl
        | cons x r =>
          simp only [moveAll, List.map_cons, List.head?_cons, Option.bind_some,
            Lexeme.move_toToken, Token.move_is]
          cases x.is "\x7b" <;> rfl

theorem typeBefore_move (type : String) (before : List Lexeme) :
    typeBefore type (moveAll f line before) = typeBefore type before := by
  induction before generalizing type with
  | nil => rfl
  | cons x before ih => simp [typeBefore, ih]

theorem constantName_move (name : Option Lexeme) (s : List Lexeme) :
    constantName (name.map (Lexeme.move f line)) (moveAll f line s) =
      (constantName name s).map (Lexeme.move f line) := by
  induction s generalizing name with
  | nil => rfl
  | cons x r ih =>
    have hname : (if x.isIdentifier then some (x.move f line) else name.map (Lexeme.move f line)) =
        (if x.isIdentifier then some x else name).map (Lexeme.move f line) := by
      split <;> rfl
    simp only [constantName, moveAll, List.map_cons, Lexeme.move_toToken, Token.move_is,
      Token.move_isTerminator, Token.move_isIdentifier, hname, ih]
    split <;> rfl

end Pass

/-! ### Passes over twins -/

/-- The states of two passes, with the places of the first moved by `f`. -/
structure Alike (f : Nat → Nat) (a b : List Token) (p q : Pass) : Prop where
  scopes : q.scopes = p.scopes
  bodies : (q.bodies.map fun entry => (place (starts b) entry.1, entry.2)) =
    p.bodies.map fun entry => (place (starts a) entry.1, entry.2)
  namespaces : q.namespaces.map (Namespace.shape (starts b)) =
    p.namespaces.map (Namespace.shape (starts a))
  classes : q.classes = p.classes.map (Class.move f)
  functions : q.functions = p.functions.map (Function.move f)
  constants : q.constants = p.constants.map (Constant.move f)
  modifiers : q.modifiers = p.modifiers
  propertyType : q.propertyType = p.propertyType
  skipUntil : place (starts b) q.skipUntil = place (starts a) p.skipUntil

namespace Alike

variable {f line : Nat → Nat} {a b : List Token} {p q : Pass} {before r s : List Lexeme}
  {x : Lexeme} {scope : Scope} {i j : Nat}

theorem start (h : Twins f line a b) : Alike f a b .start .start where
  scopes := rfl
  bodies := rfl
  namespaces := by
    simp [Pass.start, Namespace.shape, Namespace.globalFrom, h.first]
  classes := by simp [Pass.start]
  functions := by simp [Pass.start]
  constants := by simp [Pass.start]
  modifiers := rfl
  propertyType := rfl
  skipUntil := h.first

theorem classBody (hp : Alike f a b p q) : q.classBody = p.classBody := by
  unfold Pass.classBody
  rw [hp.scopes]

theorem enclosingClass (hp : Alike f a b p q) : q.enclosingClass = p.enclosingClass := by
  unfold Pass.enclosingClass
  rw [hp.scopes]

theorem atNamespaceLevel (hp : Alike f a b p q) : q.atNamespaceLevel = p.atNamespaceLevel := by
  unfold Pass.atNamespaceLevel
  rw [hp.scopes]

theorem namespaces_size (hp : Alike f a b p q) : q.namespaces.size = p.namespaces.size := by
  have := congrArg Array.size hp.namespaces
  simpa using this

theorem namespaceName (hp : Alike f a b p q) : q.namespaceName = p.namespaceName := by
  have hback :=
    congrArg (fun shapes => (shapes.back?.map Namespace.Shape.name).getD "") hp.namespaces
  simpa [Pass.namespaceName, Function.comp_def, Namespace.shape] using hback

theorem className (hp : Alike f a b p q) (id : Nat) : q.className id = p.className id := by
  unfold Pass.className
  rw [hp.classes, Array.getElem?_map, Option.map_map]
  rfl

theorem newStatement (hp : Alike f a b p q) : Alike f a b p.newStatement q.newStatement :=
  { hp with modifiers := rfl, propertyType := rfl }

theorem announce (hp : Alike f a b p q) (hij : place (starts b) j = place (starts a) i)
    (scope : Scope) : Alike f a b (p.announce i scope) (q.announce j scope) :=
  { hp with bodies := by simp [Pass.announce, hij, hp.bodies] }

theorem skipTo (h : Twins f line a b) (hp : Alike f a b p q) (hs : s ⊆ Lexeme.ofTokens false a) :
    Alike f a b (p.skipTo a.length s) (q.skipTo b.length (moveAll f line s)) := by
  refine { hp with skipUntil := ?_ }
  cases s with
  | nil => exact h.size
  | cons x r => exact h.at_lexeme x (hs List.mem_cons_self)

theorem modifyClass (hp : Alike f a b p q) (id : Nat) {e d : Class → Class}
    (he : ∀ c, (e c).move f = d (c.move f)) : Alike f a b
      { p with classes := p.classes.modify id e } { q with classes := q.classes.modify id d } :=
  { hp with classes := by rw [map_modify he, hp.classes] }

theorem modifyNamespace (hp : Alike f a b p q) (record : Nat) {e d : Namespace → Namespace}
    {g : Namespace.Shape → Namespace.Shape}
    (he : ∀ ns, (e ns).shape (starts a) = g (ns.shape (starts a)))
    (hd : ∀ ns, (d ns).shape (starts b) = g (ns.shape (starts b))) : Alike f a b
      { p with namespaces := p.namespaces.modify record e }
      { q with namespaces := q.namespaces.modify record d } :=
  { hp with namespaces := by rw [map_modify he, map_modify hd, hp.namespaces] }

/-! ### Brackets -/

theorem openBracket (h : Twins f line a b) (hp : Alike f a b p q)
    (hx : x ∈ Lexeme.ofTokens false a) :
    Alike f a b (p.openBracket x) (q.openBracket (x.move f line)) := by
  have hplace := h.at_lexeme x hx
  have hlookup : q.bodies.lookup (f x.index) = p.bodies.lookup x.index := by
    rw [← lookup_place (Twins.mem hx), ← lookup_place (h.mem_moved hx), hp.bodies, hplace]
  have hbodies : (q.bodies.filter (·.1 != f x.index)).map
      (fun entry => (place (starts b) entry.1, entry.2)) =
        (p.bodies.filter (·.1 != x.index)).map
          fun entry => (place (starts a) entry.1, entry.2) := by
    rw [filter_place (Twins.mem hx), filter_place (h.mem_moved hx), hp.bodies, hplace]
  have hscopes : (q.bodies.lookup (f x.index)).getD .block :: q.scopes =
      (p.bodies.lookup x.index).getD .block :: p.scopes := by rw [hlookup, hp.scopes]
  unfold Pass.openBracket
  simp only [Lexeme.move_toToken, Token.move_is, Token.move_index]
  split
  · exact { hp.newStatement with scopes := hscopes, bodies := hbodies }
  · exact { hp with scopes := hscopes, bodies := hbodies }

/-- What a bracket encloses ends at corresponding places. -/
theorem endScope (h : Twins f line a b) (hp : Alike f a b p q) (hx : x ∈ Lexeme.ofTokens false a)
    (scope : Scope) : Alike f a b (p.endScope x.index scope) (q.endScope (f x.index) scope) := by
  cases scope with
  | block => exact hp
  | classBody id => exact hp.modifyClass id fun c => rfl
  | functionBody id =>
    refine { hp with functions := ?_ }
    simp only [Pass.endScope]
    rw [map_modify (g := Function.move f) (d := fun c => { c with bodyEnds := f x.index })
      fun c => rfl, hp.functions]
  | namespaceBody record =>
    have hplace := h.at_lexeme x hx
    have hended := hp.modifyNamespace record (Namespace.shape_endAt (Twins.mem hx))
      (hplace ▸ Namespace.shape_endAt (h.mem_moved hx))
    refine { hended with namespaces := ?_ }
    simp only [Pass.endScope, Array.map_push, hended.namespaces]
    simp [Namespace.shape, Namespace.globalFrom, h.behind x hx]

theorem closeBracket (h : Twins f line a b) (hp : Alike f a b p q)
    (hx : x ∈ Lexeme.ofTokens false a) :
    Alike f a b (p.closeBracket x) (q.closeBracket (x.move f line)) := by
  unfold Pass.closeBracket
  rw [hp.scopes]
  cases p.scopes with
  | nil => exact hp
  | cons scope scopes =>
    have hp' : Alike f a b { p with scopes } { q with scopes } := { hp with scopes := rfl }
    have hends := hp'.endScope h hx scope
    simp only [Lexeme.move_toToken, Token.move_is, Token.move_index]
    split
    · exact hends.newStatement
    · exact hends

/-! ### Namespaces -/

/-- The last records have one shape, if there are any. -/
theorem back_cases (hp : Alike f a b p q) :
    (p.namespaces.back? = none ∧ q.namespaces.back? = none) ∨
      ∃ last last', p.namespaces.back? = some last ∧ q.namespaces.back? = some last' ∧
        last'.shape (starts b) = last.shape (starts a) := by
  have hback := congrArg Array.back? hp.namespaces
  rw [Array.back?_map, Array.back?_map] at hback
  cases hlast : p.namespaces.back? with
  | none =>
    rw [hlast, Option.map_none, Option.map_eq_none_iff] at hback
    exact Or.inl ⟨rfl, hback⟩
  | some last =>
    rw [hlast, Option.map_some, Option.map_eq_some_iff] at hback
    obtain ⟨last', hlast', hshape⟩ := hback
    exact Or.inr ⟨last, last', rfl, hlast', hshape⟩

theorem endNamespace (h : Twins f line a b) (hp : Alike f a b p q)
    (hx : x ∈ Lexeme.ofTokens false a) :
    Alike f a b (p.endNamespace x.index) (q.endNamespace (f x.index)) := by
  unfold Pass.endNamespace
  rcases hp.back_cases with ⟨hlast, hlast'⟩ | ⟨last, last', hlast, hlast', hshape⟩
  · rw [hlast, hlast']
    exact hp
  · rw [hlast, hlast']
    have hstart : place (starts b) last'.index = place (starts a) last.index :=
      congrArg Namespace.Shape.start hshape
    have hlt := h.gt_iff hx hstart
    have hpop : q.namespaces.pop.map (Namespace.shape (starts b)) =
        p.namespaces.pop.map (Namespace.shape (starts a)) := by
      rw [Array.map_pop, Array.map_pop, hp.namespaces]
    dsimp only
    by_cases hle : x.index ≤ last.index
    · rw [if_pos hle, if_pos (by omega)]
      exact { hp with namespaces := hpop }
    · rw [if_neg hle, if_neg (by omega)]
      refine { hp with namespaces := ?_ }
      have hends (marks : List Nat) (ns : Namespace) {k : Nat} (hk : ns.index < k) :
          Namespace.shape marks { ns with bodyEnds := some (k - 1) } =
            { ns.shape marks with holds := true } := by
        have hle : ns.index ≤ k - 1 := by omega
        exact congrArg (Namespace.Shape.mk _ _ _) (decide_eq_true hle)
      rw [Array.map_push, Array.map_push, hpop, hends _ last (by omega),
        hends _ last' (by omega), hshape]

theorem addNamespace (h : Twins f line a b) (hp : Alike f a b p q) {y : Lexeme}
    (hx : x ∈ Lexeme.ofTokens false a) (hy : y ∈ Lexeme.ofTokens false a) (name : String) :
    Alike f a b (p.addNamespace a.length x.index name y)
      (q.addNamespace b.length (f x.index) name (y.move f line)) := by
  have hends := hp.endNamespace h hx
  -- the new record ends with the file until it is closed
  have hfits : (f x.index ≤ b.length - 1) ↔ x.index ≤ a.length - 1 := by
    have hlt := h.lt_iff hx h.size
    have ha := h.length_pos hx
    omega
  obtain ⟨bodies, heq, hbodies⟩ := Pass.addNamespace_eq p a.length x.index name y
  obtain ⟨bodies', heq', hbodies'⟩ :=
    Pass.addNamespace_eq q b.length (f x.index) name (y.move f line)
  rw [heq, heq', hbodies, hbodies']
  refine { hp with namespaces := ?_, skipUntil := h.at_lexeme y hy, bodies := ?_ }
  · simp only [Lexeme.move_toToken, Token.move_is, Token.move_index, hends.namespaces_size]
    split
    · simp [h.at_lexeme y hy, hp.bodies]
    · exact hp.bodies
  · simp [hends.namespaces, Namespace.shape, Pass.namespaceRecord, h.at_lexeme x hx, hfits]

theorem namespaceDeclaration (h : Twins f line a b) (hp : Alike f a b p q)
    (hx : x ∈ Lexeme.ofTokens false a) (hs : s ⊆ Lexeme.ofTokens false a) :
    Alike f a b (p.namespaceDeclaration a.length x.index s)
      (q.namespaceDeclaration b.length (f x.index) (moveAll f line s)) := by
  unfold Pass.namespaceDeclaration
  rw [Lexeme.readName_move]
  dsimp only
  cases hafter : (Lexeme.readName s).2 with
  | nil => exact hp
  | cons y r =>
    have hy := hs ((Lexeme.readName_suffix s).subset (hafter ▸ List.mem_cons_self))
    have hadded := hp.addNamespace h hx hy (Lexeme.readName s).1
    simp only [moveAll, List.map_cons, Lexeme.move_toToken, Token.move_is, Token.move_isTerminator]
    split
    · exact hp
    · exact hadded

theorem importStatement (h : Twins f line a b) (hp : Alike f a b p q)
    (hs : s ⊆ Lexeme.ofTokens false a) :
    Alike f a b (p.importStatement a.length s)
      (q.importStatement b.length (moveAll f line s)) := by
  have hafter : (Import.read s).2 ⊆ Lexeme.ofTokens false a :=
    List.Subset.trans (Import.readFrom_suffix _ s).subset hs
  unfold Pass.importStatement
  rw [List.isEmpty_map, Import.read_move]
  split
  · exact hp
  · rw [hp.namespaces_size]
    exact skipTo h (hp.modifyNamespace _ (g := fun shape => { shape with
      imports := (Import.read s).1.foldl (fun m entry => m.bind entry.1 entry.2) shape.imports })
      (fun ns => rfl) fun ns => rfl) hafter

/-! ### Classes -/

theorem traitUse (h : Twins f line a b) (hp : Alike f a b p q) (id : Nat)
    (hs : s ⊆ Lexeme.ofTokens false a) :
    Alike f a b (p.traitUse a.length id s) (q.traitUse b.length id (moveAll f line s)) := by
  have hafter : (Lexeme.readNames s).2 ⊆ Lexeme.ofTokens false a :=
    List.Subset.trans (Lexeme.readNames_suffix s).subset hs
  unfold Pass.traitUse
  rw [Lexeme.readNames_move]
  dsimp only
  exact skipTo h (hp.modifyClass id fun c => rfl) hafter

theorem classDeclaration (h : Twins f line a b) (hp : Alike f a b p q)
    (hs : s ⊆ Lexeme.ofTokens false a) (kind : Class.Kind) (anonymous : Bool) (i : Nat) :
    Alike f a b (p.classDeclaration kind anonymous i s)
      (q.classDeclaration kind anonymous (f i) (moveAll f line s)) := by
  unfold Pass.classDeclaration
  rw [Pass.class?_move f line hp.namespaceName hp.modifiers]
  cases hclass : p.class? kind anonymous i s with
  | none => exact hp
  | some c =>
    obtain ⟨y, hy, hstart, _⟩ := Pass.mem_of_class? hclass
    have hplace := h.at_lexeme y (hs hy)
    rw [hstart] at hplace
    have hclasses : q.classes.push (c.move f) = (p.classes.push c).map (Class.move f) := by
      rw [Array.map_push, hp.classes]
    have hsize : q.classes.size = p.classes.size := by rw [hp.classes, Array.size_map]
    have hpushed : Alike f a b { p with classes := p.classes.push c, modifiers := .empty }
        { q with classes := q.classes.push (c.move f), modifiers := .empty } :=
      { hp with classes := hclasses, modifiers := rfl }
    simp only [Option.map_some, hsize]
    exact hpushed.announce hplace (.classBody p.classes.size)

theorem propertyDeclaration (hp : Alike f a b p q) (id : Nat) (before : List Lexeme) (x : Lexeme) :
    Alike f a b (p.propertyDeclaration id before x)
      (q.propertyDeclaration id (moveAll f line before) (x.move f line)) := by
  have hadd {p q : Pass} (hp : Alike f a b p q) : Alike f a b
      { p with classes := p.classes.modify id fun c =>
          { c with properties := c.properties ++
              [⟨x.index, x.text, some c.name, p.propertyType, p.modifiers⟩] } }
      { q with classes := q.classes.modify id fun c =>
          { c with properties := c.properties ++
              [⟨f x.index, x.text, some c.name, q.propertyType, q.modifiers⟩] } } := by
    refine hp.modifyClass id fun c => ?_
    simp [Class.move, Property.move, hp.propertyType, hp.modifiers]
  unfold Pass.propertyDeclaration
  rw [Pass.typeBefore_move]
  cases Pass.typeBefore "" before with
  | none => exact hadd hp
  | some type =>
    have htyped : Alike f a b
        { p with propertyType := if type.isEmpty then none else some type }
        { q with propertyType := if type.isEmpty then none else some type } :=
      { hp with propertyType := rfl }
    exact hadd htyped

/-- The constants of moved elements are the moved constants. -/
theorem filterMap_constantName (elements : List (List Lexeme)) {g g' : Lexeme → Constant}
    (hg : ∀ x : Lexeme, g' (x.move f line) = (g x).move f) :
    (elements.map (moveAll f line)).filterMap (fun element =>
        (Pass.constantName none element).map g') =
      (elements.filterMap fun element => (Pass.constantName none element).map g).map
        (Constant.move f) := by
  rw [List.filterMap_map, List.map_filterMap]
  refine congrArg (List.filterMap · elements) (funext fun element => ?_)
  have hname : Pass.constantName none (moveAll f line element) =
      (Pass.constantName none element).map (Lexeme.move f line) :=
    Pass.constantName_move f line none element
  rw [Function.comp_apply, hname, Option.map_map, Option.map_map]
  exact congrArg (Option.map · _) (funext hg)

theorem constantDeclaration (hp : Alike f a b p q) (s : List Lexeme) :
    Alike f a b (p.constantDeclaration s) (q.constantDeclaration (moveAll f line s)) := by
  have hp' : Alike f a b { p with modifiers := .empty } { q with modifiers := .empty } :=
    { hp with modifiers := rfl }
  unfold Pass.constantDeclaration
  rw [hp.classBody, hp.atNamespaceLevel, hp.namespaceName, hp.modifiers, Lexeme.listElements_move]
  dsimp only
  split
  · exact hp
  · cases p.classBody with
    | some id =>
      have hconstants := @filterMap_constantName f line
        (listElements Lexeme.toToken "," ";" true 0 s)
        (fun x => ⟨x.index, x.text, p.className id, p.modifiers⟩)
        (fun x => ⟨x.index, x.text, p.className id, p.modifiers⟩) fun x => rfl
      simp only [Option.isSome_some, if_true, Option.bind_some, hp.className, hconstants]
      exact hp'.modifyClass id fun c => by simp [Class.move]
    | none =>
      have hconstants := @filterMap_constantName f line
        (listElements Lexeme.toToken "," ";" true 0 s)
        (fun x => ⟨x.index, Namespace.qualifyLocal p.namespaceName x.text, none, p.modifiers⟩)
        (fun x => ⟨x.index, Namespace.qualifyLocal p.namespaceName x.text, none, p.modifiers⟩)
        fun x => rfl
      simp only [Option.isSome_none, Bool.false_eq_true, if_false, Option.bind_none, hconstants]
      refine { hp' with constants := ?_ }
      simp [hp.constants]

/-! ### Functions -/

theorem functionRecord_move (hp : Alike f a b p q) (i : Nat) (header : Signature) :
    q.functionRecord (f i) (header.move f line) = (p.functionRecord i header).move f := by
  obtain ⟨returnsReference, name, parameters, used, body, bodyAt⟩ := header
  unfold Pass.functionRecord Signature.move Function.move
  cases name <;> cases body <;>
    simp [hp.classBody, hp.enclosingClass, hp.namespaceName, hp.className, hp.modifiers, Body.move,
      Parameter.Declared.move]

theorem addMethod_move (c : Class) (id : Nat) (name : String)
    (parameters : List Parameter.Declared) :
    Pass.addMethod (c.move f) id name (parameters.map (Parameter.Declared.move f)) =
      (Pass.addMethod c id name parameters).move f := by
  unfold Pass.addMethod Class.move
  dsimp only
  split
  · simp [List.filterMap_map, List.map_filterMap, Pass.promotedProperty?, Function.comp_def,
      Parameter.Declared.move, Parameter.move, Property.move]
  · simp

theorem methodClasses_move (hp : Alike f a b p q) (i : Nat) (header : Signature) :
    q.methodClasses (f i) (header.move f line) =
      (p.methodClasses i header).map (Class.move f) := by
  have hname : (q.functionRecord (f i) (header.move f line)).name =
      (p.functionRecord i header).name := by
    rw [hp.functionRecord_move]
    rfl
  have hnamed : (header.move f line).name.isSome = header.name.isSome := Option.isSome_map
  have hsize : q.functions.size = p.functions.size := by rw [hp.functions, Array.size_map]
  unfold Pass.methodClasses
  rw [hname, hnamed, hp.classBody, hsize]
  split
  · rename_i id name _ _
    have hadd (c : Class) :=
      (addMethod_move (f := f) c p.functions.size name header.parameters).symm
    exact (hp.modifyClass id (d := fun c => Pass.addMethod c p.functions.size name
      (header.parameters.map (Parameter.Declared.move f))) hadd).classes
  · exact hp.classes

theorem addFunction (hp : Alike f a b p q) (i : Nat) {header : Signature}
    (hbody : place (starts b) (f header.bodyAt) = place (starts a) header.bodyAt) :
    Alike f a b (p.addFunction i header) (q.addFunction (f i) (header.move f line)) := by
  obtain ⟨bodies, heq, hbodies⟩ := Pass.addFunction_eq p i header
  obtain ⟨bodies', heq', hbodies'⟩ := Pass.addFunction_eq q (f i) (header.move f line)
  have hblock : (header.move f line).body = .block ↔ header.body = .block := by
    unfold Signature.move
    cases header.body <;> simp [Body.move]
  have hsize : q.functions.size = p.functions.size := by rw [hp.functions, Array.size_map]
  rw [heq, heq', hbodies, hbodies', hsize]
  simp only [hblock]
  refine { hp with classes := hp.methodClasses_move i header, functions := ?_, modifiers := rfl,
                   skipUntil := hbody, bodies := ?_ }
  · split
    · rw [List.map_cons, List.map_cons, hp.bodies]
      exact congrArg (fun start => (start, Scope.functionBody p.functions.size) :: _) hbody
    · exact hp.bodies
  · dsimp only
    rw [hp.functionRecord_move, Array.map_push, hp.functions]

theorem functionDeclaration (h : Twins f line a b) (hp : Alike f a b p q)
    (hs : s ⊆ Lexeme.ofTokens false a) (isArrow : Bool) (i : Nat) :
    Alike f a b (p.functionDeclaration isArrow i s)
      (q.functionDeclaration isArrow (f i) (moveAll f line s)) := by
  unfold Pass.functionDeclaration
  rw [Signature.read?_move]
  cases hread : Signature.read? isArrow s with
  | none => exact hp
  | some header =>
    obtain ⟨x, r, hsuffix, hat, _⟩ := Signature.read?_eq_some hread
    refine hp.addFunction i ?_
    rw [hat]
    exact h.at_lexeme x (hs (hsuffix.subset List.mem_cons_self))

/-! ### Statements -/

theorem modifier (hp : Alike f a b p q) (word : String) :
    Alike f a b (p.modifier word) (q.modifier word) := by
  unfold Pass.modifier
  split
  · exact hp
  · rw [hp.classBody, hp.atNamespaceLevel]
    dsimp only
    split
    · exact { hp with modifiers := by rw [hp.modifiers] }
    · exact hp

theorem keyword (h : Twins f line a b) (hp : Alike f a b p q) (before : List Lexeme)
    (hx : x ∈ Lexeme.ofTokens false a) (hr : r ⊆ Lexeme.ofTokens false a) :
    Alike f a b (p.keyword a.length before x r)
      (q.keyword b.length (moveAll f line before) (x.move f line) (moveAll f line r)) := by
  have hnew := Lexeme.any_head?_move f line (·.isKeyword "new") (fun x => rfl) before
  have hlist := Lexeme.any_head?_move f line (·.is ")") (fun x => rfl) before
  have hafter := Lexeme.any_head?_move f line (·.kind == .nsSeparator) (fun x => rfl) r
  unfold Pass.keyword
  simp only [hnew, hlist, hafter, hp.atNamespaceLevel, hp.classBody, List.isEmpty_map,
    Lexeme.move_toToken, Token.move_text, Token.move_index]
  generalize Text.fold x.text = word
  split
  · split
    · exact hp.namespaceDeclaration h hx hr
    · exact hp
  · split
    · split
      · exact hp
      · exact hp.traitUse h _ hr
    · split
      · exact hp.importStatement h hr
      · exact hp
  · exact hp.classDeclaration h hr .classKind _ x.index
  · exact hp.classDeclaration h hr .interfaceKind _ x.index
  · exact hp.classDeclaration h hr .traitKind _ x.index
  · exact hp.functionDeclaration h hr false x.index
  · exact hp.functionDeclaration h hr true x.index
  · exact hp.constantDeclaration r
  · exact hp.modifier _

theorem statement (h : Twins f line a b) (hp : Alike f a b p q) (before : List Lexeme)
    (hx : x ∈ Lexeme.ofTokens false a) (hr : r ⊆ Lexeme.ofTokens false a) :
    Alike f a b (p.statement a.length before x r)
      (q.statement b.length (moveAll f line before) (x.move f line) (moveAll f line r)) := by
  have hnew := Lexeme.any_head?_move f line (·.isKeyword "new") (fun x => rfl) before
  have hafter := Lexeme.any_head?_move f line (·.kind == .name) (fun x => rfl) r
  unfold Pass.statement
  simp only [hnew, hafter, hp.atNamespaceLevel, hp.classBody, Lexeme.move_toToken,
    Token.move_isTerminator, Token.move_kind, Token.move_isWord, Token.move_index]
  split
  · exact hp.newStatement
  · split
    · split
      · exact hp.propertyDeclaration _ before x
      · exact hp
    · split
      · exact hp.classDeclaration h hr .classKind _ x.index
      · exact hp
    · exact hp.keyword h before hx hr
    · exact hp

theorem step (h : Twins f line a b) (hp : Alike f a b p q) (before : List Lexeme)
    (hx : x ∈ Lexeme.ofTokens false a) (hr : r ⊆ Lexeme.ofTokens false a) :
    Alike f a b (p.step a.length before x r)
      (q.step b.length (moveAll f line before) (x.move f line) (moveAll f line r)) := by
  have hbracket : Alike f a b (p.bracket x) (q.bracket (x.move f line)) := by
    unfold Pass.bracket
    simp only [Lexeme.move_toToken, Token.move_isOpenBracket, Token.move_isCloseBracket]
    split
    · exact hp.openBracket h hx
    · split
      · exact hp.closeBracket h hx
      · exact hp
  -- what was read ahead ends at corresponding places, so both passes stop here or none does
  have hlt := h.lt_iff hx hbracket.skipUntil
  rw [Pass.step_eq, Pass.step_eq]
  by_cases hskip : (p.bracket x).skipUntil ≤ x.index
  · have hskip' : (q.bracket (x.move f line)).skipUntil ≤ (x.move f line).index := by
      simp only [Lexeme.move_toToken, Token.move_index]
      omega
    rw [if_pos hskip, if_pos hskip']
    exact hbracket.statement h before hx hr
  · have hskip' : ¬ (q.bracket (x.move f line)).skipUntil ≤ (x.move f line).index := by
      simp only [Lexeme.move_toToken, Token.move_index]
      omega
    rw [if_neg hskip, if_neg hskip']
    exact hbracket

/-- The whole pass keeps corresponding states. -/
theorem run (h : Twins f line a b) (hp : Alike f a b p q) (before : List Lexeme)
    (hs : s ⊆ Lexeme.ofTokens false a) :
    Alike f a b (p.run a.length before s)
      (q.run b.length (moveAll f line before) (moveAll f line s)) := by
  induction s generalizing p q before with
  | nil => exact hp
  | cons x r ih =>
    have hx := hs List.mem_cons_self
    have hr := List.Subset.trans (List.subset_cons_self x r) hs
    exact ih (hp.step h before hx hr) (x :: before) hr

end Alike

end Outline

end PhpLint
