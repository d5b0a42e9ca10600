import PhpLint.Proofs.Model.Change
import PhpLint.Proofs.Model.Level
import PhpLint.Proofs.Model.Trivia

/-!
The outlines of two files that differ in white space and comments only. Either both are refused for
the same bracket, or they declare the same.
-/
namespace PhpLint

open PhpLint.Bracket (Indexed)

/-! ### Brackets -/

namespace Bracket

/-- The same mismatch at other places and on other lines. -/
def Mismatch.move (f line : Nat → Nat) : Mismatch → Mismatch
  | .unmatched t => .unmatched (t.move f line)
  | .mismatched t o => .mismatched (t.move f line) (o.move f line)
  | .unclosed t => .unclosed (t.move f line)

theorem pairsFrom_move (f line : Nat → Nat) (stack ts : List Token) :
    pairsFrom (stack.map (Token.move f line)) (ts.map (Token.move f line)) =
      ((pairsFrom stack ts).map (List.map fun (i, j) => (f i, f j))).mapError
        (Mismatch.move f line) := by
  induction ts generalizing stack with
  | nil => cases stack <;> rfl
  | cons t ts ih =>
    cases stack with
    | nil =>
      simp only [List.map_cons, List.map_nil, pairsFrom, Token.move_isOpenBracket,
        Token.move_isCloseBracket]
      split
      · exact ih [t]
      · split
        · rfl
        · exact ih []
    | cons o stack =>
      simp only [List.map_cons, pairsFrom, Token.move_isOpenBracket, Token.move_isCloseBracket,
        Token.move_text, Token.move_index]
      split
      · exact ih (t :: o :: stack)
      · split
        · split
          · rw [ih stack]
            cases pairsFrom stack ts <;> rfl
          · rfl
        · exact ih (o :: stack)

/-- White space and comments only move the pairs, or the mismatch. -/
theorem pairs_twins {f line : Nat → Nat} {a b : List Token} (h : Lexeme.Twins f line a b) :
    pairs b = ((pairs a).map (List.map fun (i, j) => (f i, f j))).mapError
      (Mismatch.move f line) := by
  have hmove : (Lexeme.moveAll f line (Lexeme.ofTokens false a)).map (·.toToken) =
      ((Lexeme.ofTokens false a).map (·.toToken)).map (Token.move f line) := by
    rw [List.map_map, List.map_map]
    rfl
  rw [← pairs_lexemes false b, ← pairs_lexemes false a, h.lexemes, hmove]
  exact pairsFrom_move f line [] _

end Bracket

/-! ### Names -/

namespace Namespace

/-- What a name stands for depends on the name and the imports of the namespace. -/
theorem qualify_congr {ns ns' : Namespace} (hname : ns'.name = ns.name)
    (himports : ns'.imports = ns.imports) : ns'.qualify = ns.qualify := by
  funext name
  unfold qualify
  rw [hname, himports]

theorem resolveType_congr {ns ns' : Namespace} (h : ns'.qualify = ns.qualify) :
    ns'.resolveType = ns.resolveType := by
  have hword : ns'.resolveWord = ns.resolveWord := by
    funext word
    unfold resolveWord
    rw [h]
  have hwords (word s : List Char) : ns'.resolveWords word s = ns.resolveWords word s := by
    induction s generalizing word with
    | nil => simp only [resolveWords, hword]
    | cons c s ih => simp only [resolveWords, hword, ih]
  funext type
  unfold resolveType
  rw [hwords]

end Namespace

namespace Outline

open Lexeme (Twins starts)

/-! ### Finished records -/

variable {f line : Nat → Nat} {a b : List Token} {marks marks' : List Nat} {p q : Pass}
  {records records' : List Namespace} {i size : Nat} {x : Lexeme}

/-- A shape whose record ends behind its start and starts in front of a place. -/
def within (stop : Nat × Nat) (shape : Namespace.Shape) : Option Namespace.Shape :=
  if shape.start.2 ≤ stop.1 ∧ shape.holds then some shape else none

/-- The records that hold a token are known by their shapes. -/
theorem map_shape_finishedNamespaces (p : Pass) (hsize : size ∈ marks) (hpos : 0 < size) :
    (p.finishedNamespaces size).map (Namespace.shape marks) =
      (((p.namespaces.map (Namespace.shape marks)).modify (p.namespaces.size - 1)
        fun shape => { shape with holds := true }).map (within (place marks size))).toList.filterMap
          id := by
  have hstart (ns : Namespace) : (ns.shape marks).start.2 ≤ (place marks size).1 ↔
      ns.index ≤ size - 1 := by
    have hlt := gt_iff_place (k := ns.index) hsize
    have heq : (ns.shape marks).start = place marks ns.index := rfl
    rw [heq]
    omega
  -- a record that ends elsewhere keeps its end only if it holds a token already
  have hlast (ns : Namespace) : within (place marks size)
      (Namespace.shape marks (Pass.endLast (size - 1) ns)) =
        within (place marks size) { ns.shape marks with holds := true } := by
    rcases Pass.endLast_cases (size - 1) ns with heq | ⟨heq, e, he, hfrom, hto⟩
    · by_cases hle : ns.index ≤ size - 1
      · have hshape : Namespace.shape marks { ns with bodyEnds := some (size - 1) } =
            { ns.shape marks with holds := true } :=
          congrArg (Namespace.Shape.mk _ _ _) (decide_eq_true hle)
        rw [heq, hshape]
      · have hstop := mt (hstart ns).mp hle
        rw [heq]
        exact (if_neg fun h => hstop h.1).trans (if_neg fun h => hstop h.1).symm
    · have hshape : Namespace.shape marks ns = { ns.shape marks with holds := true } := by
        refine congrArg (Namespace.Shape.mk _ _ _) ?_
        rw [he]
        exact decide_eq_true hfrom
      rw [heq, ← hshape]
  have hwithin (ns : Namespace) :
      (Option.guard (fun ns : Namespace => decide (ns.index ≤ size - 1) &&
        ns.bodyEnds.all (ns.index ≤ ·)) ns).map (Namespace.shape marks) =
          within (place marks size) (ns.shape marks) := by
    have hkept : (decide (ns.index ≤ size - 1) && ns.bodyEnds.all (ns.index ≤ ·)) = true ↔
        (ns.shape marks).start.2 ≤ (place marks size).1 ∧ (ns.shape marks).holds := by
      rw [Bool.and_eq_true, decide_eq_true_eq, hstart]
      rfl
    unfold within Option.guard
    simp only [← hkept]
    split <;> rfl
  have hzero : (size == 0) = false := by simpa using Nat.ne_of_gt hpos
  unfold Pass.finishedNamespaces
  rw [hzero, ← map_modify_comp hlast, Array.toList_map, List.filterMap_map]
  dsimp only
  rw [if_neg Bool.false_ne_true, ← List.filterMap_eq_filter, List.map_filterMap]
  exact congrArg (List.filterMap · _) (funext hwithin)

/-- The shape of the record in force at a place. -/
def shapeAt (marks : List Nat) (shapes : List Namespace.Shape) (spot : Nat × Nat) :
    Namespace.Shape :=
  match (shapes.takeWhile fun shape => !decide (spot.2 ≤ shape.start.1)).getLast? with
  | some shape => shape
  | none => shapes.head?.getD ((Namespace.globalFrom 0).shape marks)

theorem shape_namespaceAt (hi : i ∈ marks) (records : List Namespace) :
    (namespaceAt records i).shape marks =
      shapeAt marks (records.map (Namespace.shape marks)) (place marks i) := by
  have hle (ns : Namespace) : decide (ns.index ≤ i) =
      !decide ((place marks i).2 ≤ (ns.shape marks).start.1) := by
    rw [← decide_not, decide_eq_decide, ← Nat.not_lt, lt_iff_place hi]
    rfl
  have htake : (records.map (Namespace.shape marks)).takeWhile
      (fun shape => !decide ((place marks i).2 ≤ shape.start.1)) =
        (records.takeWhile (·.index ≤ i)).map (Namespace.shape marks) := by
    rw [List.takeWhile_map]
    simp only [hle]
    rfl
  unfold namespaceAt shapeAt
  rw [htake, List.getLast?_map, List.head?_map]
  cases (records.takeWhile (·.index ≤ i)).getLast? with
  | some ns => rfl
  | none => cases records <;> rfl

/-- The records of two files agree but for their places. -/
theorem map_shape_finishedNamespaces_twins (h : Twins f line a b) (hp : Alike f a b p q) :
    (q.finishedNamespaces b.length).map (Namespace.shape (starts b)) =
      (p.finishedNamespaces a.length).map (Namespace.shape (starts a)) := by
  have hmem (ts : List Token) : ts.length ∈ starts ts :=
    List.mem_append_right _ List.mem_cons_self
  have hsize : 0 < b.length ↔ 0 < a.length := h.size_iff h.first
  by_cases hpos : 0 < a.length
  · rw [map_shape_finishedNamespaces q (hmem b) (hsize.mpr hpos),
      map_shape_finishedNamespaces p (hmem a) hpos, hp.namespaces, hp.namespaces_size, h.size]
  · have ha : a.length = 0 := by omega
    have hb : b.length = 0 := by omega
    rw [ha, hb]
    rfl

theorem shape_namespaceAt_twins (h : Twins f line a b) (hx : x ∈ Lexeme.ofTokens false a)
    (hrecords : records'.map (Namespace.shape (starts b)) =
      records.map (Namespace.shape (starts a))) :
    (namespaceAt records' (f x.index)).shape (starts b) =
      (namespaceAt records x.index).shape (starts a) := by
  have hglobal : (Namespace.globalFrom 0).shape (starts b) =
      (Namespace.globalFrom 0).shape (starts a) :=
    congrArg (Namespace.Shape.mk "" [] · true) h.first
  rw [shape_namespaceAt (h.mem_moved hx), shape_namespaceAt (Twins.mem hx), hrecords,
    h.at_lexeme x hx]
  unfold shapeAt
  rw [hglobal]

/-! ### Resolved names -/

theorem resolveClass_move {c : Class}
    (hshape : (namespaceAt records' (f c.index)).shape marks' =
      (namespaceAt records c.index).shape marks) :
    resolveClass records' (c.move f) = (resolveClass records c).move f := by
  have hqualify := Namespace.qualify_congr (congrArg Namespace.Shape.name hshape)
    (congrArg Namespace.Shape.imports hshape)
  have htype := Namespace.resolveType_congr hqualify
  unfold resolveClass Class.move
  dsimp only
  rw [hqualify, List.map_map, List.map_map]
  congr 2
  funext x
  unfold Function.comp resolveProperty Property.move
  rw [htype]

theorem resolveFunction_move {g : Function}
    (hshape : (namespaceAt records' (f g.index)).shape marks' =
      (namespaceAt records g.index).shape marks) :
    resolveFunction records' (g.move f) = (resolveFunction records g).move f := by
  have htype := Namespace.resolveType_congr (Namespace.qualify_congr
    (congrArg Namespace.Shape.name hshape) (congrArg Namespace.Shape.imports hshape))
  unfold resolveFunction Function.move
  dsimp only
  rw [List.map_map, List.map_map]
  congr 2
  funext x
  unfold Function.comp resolveParameter Parameter.move
  rw [htype]

/-! ### Entities and their keywords -/

theorem Pass.Reaches.exists_lexeme_class {before : List Lexeme} (h : Pass.Reaches a before p) :
    ∀ c ∈ p.classes, ∃ x ∈ Lexeme.ofTokens false a, x.index = c.index := by
  induction h with
  | start => intro c hc; simp [Pass.start] at hc
  | @step p before after x h hsplit ih =>
    refine (Pass.step_cases p a.length before x after).forall_classes ih
      (fun c _ _ _ _ _ hc => hc) fun kind c hkind hclass _ => ?_
    obtain ⟨_, _, _, _, _, _, _, _, hindex, _⟩ := Pass.class?_eq_some hclass
    exact ⟨x, by rw [hsplit]; simp, hindex.symm⟩

theorem Pass.Reaches.exists_lexeme_function {before : List Lexeme} (h : Pass.Reaches a before p) :
    ∀ g ∈ p.functions, ∃ x ∈ Lexeme.ofTokens false a, x.index = g.index := by
  induction h with
  | start => intro g hg; simp [Pass.start] at hg
  | @step p before after x h hsplit ih =>
    refine (Pass.step_cases p a.length before x after).forall_functions ih
      (fun g _ hg => hg) fun isArrow header hkind hread _ => ?_
    exact ⟨x, by rw [hsplit]; simp, rfl⟩

/-! ### Outlines -/

/-- Two outlines say the same, with the places in the first moved by `f`. -/
structure Agrees (f : Nat → Nat) (o o' : Outline) : Prop where
  classes : o'.classes = o.classes.map (Class.move f)
  functions : o'.functions = o.functions.map (Function.move f)
  constants : o'.constants = o.constants.map (Constant.move f)
  names : o'.namespaces.map (·.name) = o.namespaces.map (·.name)
  imports : o'.namespaces.map (·.imports) = o.namespaces.map (·.imports)

/-- Two files are both refused, for the same bracket, or both accepted. -/
inductive AgreesOrFails (f : Nat → Nat) :
    Except Bracket.Mismatch Outline → Except Bracket.Mismatch Outline → Prop where
  | ok {o o' : Outline} (h : Agrees f o o') : AgreesOrFails f (.ok o) (.ok o')
  | error (m : Bracket.Mismatch) (line : Nat → Nat) :
    AgreesOrFails f (.error m) (.error (m.move f line))

theorem agrees_ofFinal (h : Twins f line a b) (found found' : List (Nat × Nat)) :
    Agrees f (ofFinal a found) (ofFinal b found') := by
  have hp : Alike f a b (Pass.final a) (Pass.final b) := by
    unfold Pass.final
    rw [h.lexemes]
    exact (Alike.start h).run h [] (List.Subset.refl _)
  have hrecords := map_shape_finishedNamespaces_twins h hp
  refine ⟨?_, ?_, ?_, ?_, ?_⟩
  · unfold ofFinal
    dsimp only
    rw [hp.classes, Array.map_map, Array.map_map]
    refine Array.map_congr_left fun c hc => ?_
    obtain ⟨x, hx, hindex⟩ := (Pass.reaches_final a).exists_lexeme_class c hc
    have hshape := shape_namespaceAt_twins h hx hrecords
    rw [hindex] at hshape
    exact resolveClass_move hshape
  · unfold ofFinal
    dsimp only
    rw [hp.functions, Array.map_map, Array.map_map]
    refine Array.map_congr_left fun g hg => ?_
    obtain ⟨x, hx, hindex⟩ := (Pass.reaches_final a).exists_lexeme_function g hg
    have hshape := shape_namespaceAt_twins h hx hrecords
    rw [hindex] at hshape
    exact resolveFunction_move hshape
  · unfold ofFinal
    dsimp only
    rw [hp.constants, Array.toList_map]
  · have hnames := congrArg (List.map Namespace.Shape.name) hrecords
    rwa [List.map_map, List.map_map] at hnames
  · have himports := congrArg (List.map Namespace.Shape.imports) hrecords
    rwa [List.map_map, List.map_map] at himports

theorem agreesOrFails_ofTokens (h : Twins f line a b) :
    AgreesOrFails f (ofTokens a) (ofTokens b) := by
  have hpairs := Bracket.pairs_twins h
  cases hfound : Bracket.pairs a with
  | error m =>
    rw [hfound] at hpairs
    have ha : ofTokens a = .error m := except_bind_eq_error.mpr (Or.inl hfound)
    have hb : ofTokens b = .error (m.move f line) := except_bind_eq_error.mpr (Or.inl hpairs)
    rw [ha, hb]
    exact .error m line
  | ok found =>
    rw [hfound] at hpairs
    have ha : ofTokens a = .ok (ofFinal a found) := except_bind_eq_ok.mpr ⟨found, hfound, rfl⟩
    have hb : ofTokens b = .ok (ofFinal b (found.map fun (i, j) => (f i, f j))) :=
      except_bind_eq_ok.mpr ⟨_, hpairs, rfl⟩
    rw [ha, hb]
    exact .ok (agrees_ofFinal h found _)

end Outline

/-! ### Corresponding tokens -/

namespace Token

/-- The place in `b` of the token with syntax that stands at a place of `a`. -/
def counterpart (a b : List Token) (i : Nat) : Nat :=
  ((((significant a).map (·.index)).zip ((significant b).map (·.index))).lookup i).getD i

theorem map_getD_lookup_zip {is js : List Nat} (h : is.Nodup) (hlength : is.length = js.length) :
    is.map (fun i => ((is.zip js).lookup i).getD i) = js := by
  induction is generalizing js with
  | nil => exact (List.length_eq_zero_iff.mp hlength.symm).symm
  | cons i is ih =>
    cases js with
    | nil => contradiction
    | cons j js =>
      obtain ⟨hi, hnodup⟩ := List.nodup_cons.mp h
      have hothers : is.map (fun k => (((i :: is).zip (j :: js)).lookup k).getD k) =
          is.map fun k => ((is.zip js).lookup k).getD k := by
        refine List.map_congr_left fun k hk => ?_
        have hne : (k == i) = false := beq_false_of_ne fun heq => hi (heq ▸ hk)
        rw [List.zip_cons_cons, List.lookup_cons, hne]
      rw [List.map_cons, hothers, ih hnodup (Nat.succ.inj hlength), List.zip_cons_cons,
        List.lookup_cons_self]
      rfl

/-- The tokens with syntax are moved to each other in order. -/
theorem map_counterpart {a b : List Token} (ha : Indexed a) (h : SameSyntax a b) :
    (significant a).map (fun t => counterpart a b t.index) = (significant b).map (·.index) := by
  have hnodup : ((significant a).map (·.index)).Nodup :=
    ha.nodup.sublist (List.filter_sublist.map _)
  have hlength : ((significant a).map (·.index)).length =
      ((significant b).map (·.index)).length := by
    have := congrArg List.length h.tokens
    simpa using this
  have hmap := map_getD_lookup_zip hnodup hlength
  rwa [List.map_map] at hmap

end Token

end PhpLint
