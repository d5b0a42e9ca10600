import PhpLint.Proofs.Model.Owner

/-!
Which class a function belongs to. The pass writes it down twice, in the function and in the list of
its class, and the tables of the file find it once more from the extents of the classes.
-/
namespace PhpLint

/-- Whether a function is a method of the class with a number. -/
def Function.isMethodOf (f : Function) (c : Nat) : Bool :=
  f.name.isSome && f.classId == some c

/-- The methods of the class with a number among some functions. -/
def methodIds (functions : Array Function) (c : Nat) : List Nat :=
  (List.range functions.size).filter fun m => functions[m]?.any (·.isMethodOf c)

section MethodIds

variable {functions : Array Function} {f : Function} {c m : Nat}

theorem Function.isMethodOf_iff : f.isMethodOf c ↔ f.name.isSome ∧ f.classId = some c := by
  simp [isMethodOf]

theorem mem_methodIds : m ∈ methodIds functions c ↔
    ∃ f, functions[m]? = some f ∧ f.isMethodOf c := by
  unfold methodIds
  rw [List.mem_filter, List.mem_range, Option.any_eq_true]
  refine ⟨fun ⟨_, h⟩ => h, fun h => ⟨?_, h⟩⟩
  obtain ⟨f, hf, _⟩ := h
  exact (Array.getElem?_eq_some_iff.mp hf).1

theorem methodIds_rise (functions : Array Function) (c : Nat) :
    (methodIds functions c).Pairwise (· < ·) :=
  List.pairwise_lt_range.filter _

theorem methodIds_push (functions : Array Function) (f : Function) (c : Nat) :
    methodIds (functions.push f) c =
      methodIds functions c ++ if f.isMethodOf c then [functions.size] else [] := by
  unfold methodIds
  rw [Array.size_push, List.range_succ, List.filter_append]
  congr 1
  · refine List.filter_congr fun m hm => ?_
    rw [Array.getElem?_push, if_neg (Nat.ne_of_lt (List.mem_range.mp hm))]
  · rw [List.filter_singleton, Array.getElem?_push_size, Option.any_some]
    cases f.isMethodOf c <;> rfl

theorem methodIds_modify (functions : Array Function) (i : Nat) {g : Function → Function}
    (hg : ∀ f, (g f).isMethodOf c = f.isMethodOf c) :
    methodIds (functions.modify i g) c = methodIds functions c := by
  unfold methodIds
  rw [Array.size_modify]
  refine List.filter_congr fun m _ => ?_
  rw [Array.getElem?_modify]
  split
  · cases functions[m]? with
    | none => rfl
    | some f => exact hg f
  · rfl

end MethodIds

namespace Outline

variable {ts : List Token} {found : List (Nat × Nat)} {before after s : List Lexeme} {x : Lexeme}

namespace Pass

variable {p p' : Pass} {size i c : Nat} {C C' : Class} {f : Function}

/-! ### Lists of methods -/

theorem isMethodOf_functionRecord (p : Pass) (i : Nat) (header : Signature) (c : Nat) :
    (p.functionRecord i header).isMethodOf c ↔ header.name.isSome ∧ p.classBody = some c := by
  rw [Function.isMethodOf_iff]
  unfold functionRecord
  cases header.name <;> simp

/-- A method is entered into its class, and into no other. -/
theorem exists_of_getElem?_methodClasses {header : Signature}
    (h : (p.methodClasses i header)[c]? = some C') : ∃ C, p.classes[c]? = some C ∧
      C'.methods = C.methods ++
        if (p.functionRecord i header).isMethodOf c then [p.functions.size] else [] := by
  have hother (hnot : ¬ (header.name.isSome ∧ p.classBody = some c))
      (h : p.classes[c]? = some C') : ∃ C, p.classes[c]? = some C ∧ C'.methods = C.methods ++
        if (p.functionRecord i header).isMethodOf c then [p.functions.size] else [] := by
    rw [← isMethodOf_functionRecord p i] at hnot
    exact ⟨C', h, by rw [if_neg hnot, List.append_nil]⟩
  unfold methodClasses at h
  split at h
  · rename_i id name hid hname
    have hbody : header.name.isSome ∧ p.classBody = some id := by
      split at hid
      · rename_i hnamed
        exact ⟨hnamed, hid⟩
      · contradiction
    rw [Array.getElem?_modify] at h
    split at h
    · rename_i heq
      obtain ⟨C, hC, rfl⟩ := Option.map_eq_some_iff.mp h
      rw [← heq] at hC ⊢
      refine ⟨C, hC, ?_⟩
      rw [if_pos ((isMethodOf_functionRecord p i header id).mpr hbody)]
      rfl
    · rename_i hne
      refine hother (fun h => hne ?_) h
      exact Option.some.inj (hbody.2.symm.trans h.2)
  · rename_i hnone
    refine hother (fun ⟨hnamed, hbody⟩ => ?_) h
    obtain ⟨n, hn⟩ : ∃ n, (p.functionRecord i header).name = some n := by
      unfold functionRecord
      obtain ⟨y, hy⟩ := Option.isSome_iff_exists.mp hnamed
      exact ⟨_, by rw [hy]; rfl⟩
    exact hnone c n (by rw [if_pos hnamed, hbody]) hn

/-- What the records of functions and the lists of classes say about methods. -/
structure Owned (p : Pass) : Prop where
  methods : ∀ (c : Nat) (C : Class), p.classes[c]? = some C → C.methods = methodIds p.functions c
  className : ∀ f ∈ p.functions, ∀ c, f.classId = some c →
    Holds p.classes (fun C => f.className = some C.name) c

theorem exists_of_getElem?_modify {α : Type} {xs : Array α} {g : α → α} {b : α} {i j : Nat}
    (h : (xs.modify i g)[j]? = some b) : ∃ a, xs[j]? = some a ∧ (b = a ∨ b = g a) := by
  rw [Array.getElem?_modify] at h
  split at h
  · obtain ⟨a, ha, rfl⟩ := Option.map_eq_some_iff.mp h
    exact ⟨a, ha, Or.inr rfl⟩
  · exact ⟨b, h, Or.inl rfl⟩

/-- A change of one class that leaves its methods alone. -/
theorem Owned.methods_modify (h : p.Owned) {id : Nat} {g : Class → Class}
    (hg : ∀ C, (g C).methods = C.methods) (hC : (p.classes.modify id g)[c]? = some C) :
    C.methods = methodIds p.functions c := by
  obtain ⟨C', hC', rfl | rfl⟩ := exists_of_getElem?_modify hC
  · exact h.methods c C hC'
  · rw [hg]
    exact h.methods c C' hC'

/-- A class that was just declared has no methods yet. -/
theorem Owned.methodIds_eq_nil (h : p.Owned) : methodIds p.functions p.classes.size = [] := by
  rw [List.eq_nil_iff_forall_not_mem]
  intro m hm
  obtain ⟨f, hf, hmethod⟩ := mem_methodIds.mp hm
  have hlt := (h.className f (Array.mem_of_getElem? hf) _
    (Function.isMethodOf_iff.mp hmethod).2).lt
  exact absurd hlt (Nat.lt_irrefl _)

theorem Step.methods_eq (h : p.Step size before x after p') (ho : p.Owned)
    (hC : p'.classes[c]? = some C) : C.methods = methodIds p'.functions c := by
  cases h.records with
  | same hclasses hfunctions =>
    rw [hfunctions]
    exact ho.methods c C (hclasses ▸ hC)
  | classEnds _ _ hclasses hfunctions =>
    rw [hfunctions]
    exact ho.methods_modify (g := ({ · with bodyEnds := x.index })) (fun _ => rfl) (hclasses ▸ hC)
  | functionEnds _ _ hclasses hfunctions =>
    rw [hfunctions, methodIds_modify]
    · exact ho.methods c C (hclasses ▸ hC)
    · exact fun _ => rfl
  | members hg hclasses hfunctions =>
    rw [hfunctions]
    refine ho.methods_modify (fun C => ?_) (hclasses ▸ hC)
    obtain ⟨properties, constants, heq⟩ := hg C
    rw [heq]
  | traits _ _ hclasses hfunctions =>
    rw [hfunctions]
    exact ho.methods_modify
      (g := fun C => { C with traits := C.traits ++ (Lexeme.readNames after).1 })
      (fun _ => rfl) (hclasses ▸ hC)
  | «class» _ hclass hclasses hfunctions =>
    rw [hfunctions]
    rcases getElem?_push_cases (hclasses ▸ hC) with ⟨rfl, rfl⟩ | hC
    · obtain ⟨_, _, _, _, _, _, _, _, _, _, _, _, hnone⟩ := class?_eq_some hclass
      rw [hnone, ho.methodIds_eq_nil]
    · exact ho.methods c C hC
  | function _ _ _ _ hfunctions _ _ _ hmethods =>
    obtain ⟨C', hC', heq⟩ := exists_of_getElem?_methodClasses (hmethods ▸ hC)
    rw [hfunctions, methodIds_push, heq, ho.methods c C' hC']

theorem Reaches.owned (h : Reaches ts before p) (ha : Accepted ts found) : p.Owned := by
  induction h with
  | start =>
    refine ⟨fun c C hC => ?_, fun f hf => ?_⟩
    · simp [Pass.start] at hC
    · simp [Pass.start] at hf
  | @step p before after x h hsplit ih =>
    have hstep := step_cases p ts.length before x after
    refine ⟨fun c C hC => hstep.methods_eq ih hC, ?_⟩
    refine hstep.forall_functions (fun f hf c hc => ?_) (fun f _ hf => hf) ?_
    · exact hstep.holds_classes (fun C _ _ _ _ _ hC => hC) (ih.className f hf c hc)
    · intro isArrow header hkind hread _ c hc
      have hsound := h.sound ha
      have hlt : c < p.classes.size := by
        unfold functionRecord at hc
        dsimp only at hc
        split at hc
        · exact hsound.classBody_lt hc
        · exact hsound.enclosingClass_lt hc
      refine hstep.holds_classes (fun C _ _ _ _ _ hC => hC) ⟨p.classes[c], ?_, ?_⟩
      · exact Array.getElem?_eq_getElem hlt
      · have hname : (p.functionRecord x.index header).className =
            (p.functionRecord x.index header).classId.bind p.className := rfl
        rw [hname, hc, Option.bind_some]
        unfold Pass.className
        rw [Array.getElem?_eq_getElem hlt]
        rfl

/-! ### Brackets of classes -/

/-- A class ends where its body does, or its body has not ended; one with methods has a body. -/
theorem Reaches.classEnd (h : Reaches ts before p) (ha : Accepted ts found) :
    ∀ (c : Nat) (C : Class), p.classes[c]? = some C →
      (C.bodyEnds = C.bodyStarts ∨ (C.bodyStarts, C.bodyEnds) ∈ found) ∧
        (C.methods ≠ [] → .classBody c ∈ p.scopes ∨ (C.bodyStarts, C.bodyEnds) ∈ found) := by
  induction h with
  | start => intro c C hC; simp [Pass.start] at hC
  | @step p before after x h hsplit ih =>
    intro c C' hC'
    have hstep := step_cases p ts.length before x after
    rcases hstep.class_cases hC' with ⟨_, _, hclass, _⟩ | ⟨C, hC, _, hstart, hend, hmethods⟩
    · obtain ⟨_, _, _, _, _, _, _, _, _, hstart, hend, _, hnone⟩ := class?_eq_some hclass
      exact ⟨Or.inl (hend.trans hstart.symm), fun hne => absurd hnone hne⟩
    by_cases hends : x.isCloseBracket ∧ p.scopes.head? = some (.classBody c)
    · have hpair := h.pair_of_ends ha hsplit hends.1 hends.2 hC'
      exact ⟨Or.inr hpair, fun _ => Or.inr hpair⟩
    · rw [hstart, hend.resolve_right hends]
      obtain ⟨hended, hbody⟩ := ih c C hC
      refine ⟨hended, fun hne => ?_⟩
      have hinside : .classBody c ∈ p.scopes ∨ (C.bodyStarts, C.bodyEnds) ∈ found := by
        rcases hmethods with hmethods | ⟨hinnermost, _⟩
        · exact hbody (hmethods ▸ hne)
        · obtain ⟨scopes, hscopes⟩ := scopes_of_classBody hinnermost
          exact Or.inl (hscopes ▸ List.mem_cons_self)
      exact hinside.imp_left fun hscope => (hstep.mem_scopes hscope).resolve_right hends

/-- Of the classes whose body begins with the bracket at `k` none comes after the one of a scope. -/
def LatestAt (p : Pass) (k : Nat) (scope : Scope) : Prop :=
  ∀ c, scope = .classBody c → ∀ (d : Nat) (D : Class), p.classes[d]? = some D →
    D.bodyStarts = k → d ≤ c

theorem Step.latestAt {k : Nat} {scope : Scope} (h : p.Step size before x after p')
    (hrising : Lexeme.Rising (x.index + 1) size after) (hk : k ≤ x.index)
    (hlatest : p.LatestAt k scope) : p'.LatestAt k scope := by
  intro c hc d D hD hstart
  rcases h.class_cases hD with ⟨_, _, hclass, _⟩ | ⟨D', hD', _, hstart', _⟩
  · obtain ⟨y, hy, hindex, _⟩ := mem_of_class? hclass
    have := (hrising.between y hy).1
    omega
  · exact hlatest c hc d D' hD' (hstart'.symm.trans hstart)

/-- The class of an open or announced body is the last one with that bracket. -/
structure Latest (p : Pass) (before : List Lexeme) : Prop where
  scopes : List.Forall₂ (fun (o : Token) scope => o.index < reach before ∧ p.LatestAt o.index scope)
    (Lexeme.opened before) p.scopes
  bodies : ∀ k scope, p.bodies.lookup k = some scope → p.LatestAt k scope

theorem Step.latestAt_of_lookup {k : Nat} {scope : Scope} (h : p.Step size before x after p')
    (hlatest : ∀ k scope, p.bodies.lookup k = some scope → p.LatestAt k scope)
    (hlookup : p'.bodies.lookup k = some scope) : p'.LatestAt k scope := by
  rintro c rfl d D hD rfl
  rcases h.class_cases hD with ⟨_, _, _, hbodies⟩ | ⟨D', hD', _, hstart, _⟩
  · rw [hbodies, List.lookup_cons_self, Option.some.injEq] at hlookup
    rw [Scope.classBody.inj hlookup]
  have hold (hlookup : p.bodies.lookup D.bodyStarts = some (.classBody c)) : d ≤ c :=
    hlatest _ _ hlookup c rfl d D' hD' hstart.symm
  have hpush {k : Nat} {scope : Scope} (hbodies : p'.bodies = (k, scope) :: p.bodies)
      (hscope : scope = .classBody c → d ≤ c) : d ≤ c := by
    rw [hbodies, List.lookup_cons] at hlookup
    split at hlookup
    · exact hscope (Option.some.inj hlookup)
    · exact hold hlookup
  cases h.brackets with
  | same _ _ _ hbodies | closing _ _ hbodies => exact hold (hbodies ▸ hlookup)
  | opening _ _ hbodies =>
    have hne : D.bodyStarts ≠ x.index := by
      intro heq
      have hmem := mem_of_lookup hlookup
      rw [hbodies, heq] at hmem
      simp at hmem
    rw [hbodies, lookup_filter_of_ne hne] at hlookup
    exact hold hlookup
  | «class» _ _ _ _ _ hbodies =>
    refine hpush hbodies fun heq => ?_
    rw [← Scope.classBody.inj heq]
    exact Nat.le_of_lt (Array.getElem?_eq_some_iff.mp hD').1
  | function _ _ _ _ _ _ hbodies => exact hpush hbodies nofun
  | «namespace» _ _ _ _ _ _ _ _ hbodies => exact hpush hbodies nofun

theorem Reaches.latest (h : Reaches ts before p) (ha : Accepted ts found) : p.Latest before := by
  induction h with
  | start => exact ⟨List.Forall₂.nil, nofun⟩
  | @step p before after x h hsplit ih =>
    have hstep := step_cases p ts.length before x after
    have hrising := ha.between hsplit
    have hx := (hrising.between x List.mem_cons_self).1
    have hscopes := ih.scopes.imp fun o scope ho => And.intro
      (show o.index < x.index + 1 by omega)
      (hstep.latestAt hrising.tail (by omega) ho.2)
    refine ⟨?_, fun k scope => hstep.latestAt_of_lookup ih.bodies⟩
    cases hstep.brackets with
    | opening hopen hscopes' =>
      rw [hscopes', Lexeme.opened_of_open hopen]
      refine List.Forall₂.cons ⟨Nat.lt_succ_self _,
        hstep.latestAt hrising.tail (Nat.le_refl _) ?_⟩ hscopes
      cases hlookup : p.bodies.lookup x.index with
      | none => exact nofun
      | some scope => exact ih.bodies _ _ hlookup
    | closing hclose hscopes' =>
      rw [hscopes', Lexeme.opened_of_close hclose, ← List.drop_one, ← List.drop_one]
      exact List.forall₂_drop 1 hscopes
    | same hopen hclose hscopes' | «class» hopen hclose _ _ hscopes'
    | function hopen hclose _ _ _ hscopes' | «namespace» hopen hclose _ _ _ _ _ hscopes' =>
      rw [hscopes', Lexeme.opened_of_other hopen hclose]
      exact hscopes

/-! ### Places of methods -/

/-- A function with a name whose keyword stands directly in the bracket at `k`. -/
def Placed (ts : List Token) (k i : Nat) : Prop :=
  ∃ (before : List Lexeme) (x : Lexeme) (front : List Lexeme) (name paren : Lexeme)
      (r : List Lexeme) (o : Token) (outside : List Token),
    Lexeme.ofTokens false ts = before.reverse ++ x :: (front ++ name :: paren :: r) ∧
      x.isIdentifier ∧ x.index = i ∧ (∀ z ∈ front, z.is "&") ∧ name.isIdentifier ∧
      paren.is "(" ∧ Lexeme.opened before = o :: outside ∧ o.index = k

/-- A class and a function have different keywords. -/
theorem Reaches.index_ne (h : Reaches ts before p) (ha : Accepted ts found) :
    ∀ C ∈ p.classes, ∀ f ∈ p.functions, C.index ≠ f.index := by
  induction h with
  | start => intro C hC; simp [Pass.start] at hC
  | @step p before after x h hsplit ih =>
    have hx := ((ha.between hsplit).between x List.mem_cons_self).1
    -- a step enters a class or a function, and all others are in front of it
    cases (step_cases p ts.length before x after).records with
    | same hclasses hfunctions =>
      rw [hclasses, hfunctions]
      exact ih
    | classEnds _ _ hclasses hfunctions =>
      rw [hclasses, hfunctions]
      exact forall_modify ih _ fun C _ hC => hC
    | functionEnds _ _ hclasses hfunctions =>
      rw [hclasses, hfunctions]
      exact fun C hC => forall_modify (ih C hC) _ fun f _ hf => hf
    | members hg hclasses hfunctions =>
      rw [hclasses, hfunctions]
      refine forall_modify ih _ fun C _ hC => ?_
      obtain ⟨properties, constants, heq⟩ := hg C
      rw [heq]
      exact hC
    | traits _ _ hclasses hfunctions =>
      rw [hclasses, hfunctions]
      exact forall_modify ih _ fun C _ hC => hC
    | «class» _ hclass hclasses hfunctions =>
      rw [hclasses, hfunctions]
      refine forall_push ih fun f hf => ?_
      obtain ⟨_, _, _, _, _, _, _, _, hindex, _⟩ := class?_eq_some hclass
      have := (h.functions_named ha f hf).1
      omega
    | @function _ header _ _ _ hclasses hfunctions =>
      have hnew : ∀ C ∈ p.classes, ∀ f ∈ p.functions.push (p.functionRecord x.index header),
          C.index ≠ f.index := by
        intro C hC
        refine forall_push (ih C hC) ?_
        have hlt := (h.classes_named ha C hC).1
        change C.index ≠ x.index
        omega
      rw [hfunctions]
      rcases hclasses with hclasses | ⟨_, _, _, hclasses⟩
      · rw [hclasses]
        exact hnew
      · rw [hclasses]
        exact forall_modify hnew _ fun C _ hC => hC

/-- Methods stand in the body of their class, which is the last one with that bracket. -/
theorem Reaches.methods_placed (h : Reaches ts before p) (ha : Accepted ts found) :
    ∀ (c : Nat) (C : Class), p.classes[c]? = some C → ∀ m ∈ C.methods, ∃ f,
      p.functions[m]? = some f ∧ Placed ts C.bodyStarts f.index ∧
        ∀ (d : Nat) (D : Class), p.classes[d]? = some D → D.index ≤ f.index →
          D.bodyStarts = C.bodyStarts → d ≤ c := by
  induction h with
  | start => intro c C hC; simp [Pass.start] at hC
  | @step p before after x h hsplit ih =>
    intro c C' hC' m hm
    have hstep := step_cases p ts.length before x after
    have hx := ((ha.between hsplit).between x List.mem_cons_self).1
    have hold {C : Class} (hC : p.classes[c]? = some C) (hstart : C'.bodyStarts = C.bodyStarts)
        (hm : m ∈ C.methods) : ∃ f, (p.step ts.length before x after).functions[m]? = some f ∧
          Placed ts C'.bodyStarts f.index ∧
          ∀ (d : Nat) (D : Class), (p.step ts.length before x after).classes[d]? = some D →
            D.index ≤ f.index → D.bodyStarts = C'.bodyStarts → d ≤ c := by
      obtain ⟨f, hf, hplaced, hlast⟩ := ih c C hC m hm
      obtain ⟨f', hf', hindex⟩ := hstep.holds_functions (P := (·.index = f.index))
        (fun _ _ hf => hf) ⟨f, hf, rfl⟩
      refine ⟨f', hf', by rwa [hindex, hstart], fun d D hD hle hbody => ?_⟩
      have hbefore := (h.functions_named ha f (Array.mem_of_getElem? hf)).1
      rcases hstep.class_cases hD with ⟨_, _, hclass, _⟩ | ⟨D', hD', hindex', hbody', _⟩
      · obtain ⟨_, _, _, _, _, _, _, _, hat, _⟩ := class?_eq_some hclass
        omega
      · exact hlast d D' hD' (by omega) (by rw [← hbody', hbody, hstart])
    rcases hstep.class_cases hC' with ⟨_, _, hclass, _⟩ | ⟨C, hC, _, hstart, _, hmethods⟩
    · obtain ⟨_, _, _, _, _, _, _, _, _, _, _, _, hnone⟩ := class?_eq_some hclass
      rw [hnone] at hm
      contradiction
    rcases hmethods with hmethods | ⟨hbody, hmethods, hkind, _, header, hread, hfunctions⟩
    · exact hold hC hstart (hmethods ▸ hm)
    have hmem := hm
    rw [hmethods] at hmem
    rcases List.mem_append.mp hmem with hmem | hmem
    · exact hold hC hstart hmem
    -- the method is the function that was just entered
    obtain ⟨f, hf, hmethod⟩ :=
      mem_methodIds.mp (((h.step hsplit).owned ha).methods c C' hC' ▸ hm)
    obtain rfl : m = p.functions.size := List.mem_singleton.mp hmem
    obtain rfl : p.functionRecord x.index header = f := by
      rw [hfunctions, Array.getElem?_push_size] at hf
      exact Option.some.inj hf
    obtain ⟨front, name, paren, r, rfl, hamps, hword, hparen⟩ :=
      Signature.front_of_name hread ((isMethodOf_functionRecord p x.index header c).mp hmethod).1
    obtain ⟨scopes, hscopes⟩ := scopes_of_classBody hbody
    obtain ⟨o, outside, hopened, D, hD, hbegins⟩ := (h.tracks ha hsplit).innermost
      (List.head?_eq_some_iff.mpr ⟨scopes, hscopes⟩)
    rw [hC, Option.some.injEq] at hD
    have hlatest := (h.latest ha).scopes
    rw [hscopes, hopened] at hlatest
    obtain ⟨⟨hlt, hlast⟩, _⟩ := List.forall₂_cons.mp hlatest
    have hstart' : C'.bodyStarts = o.index := by rw [hstart, hD, hbegins]
    rw [hstart']
    refine ⟨_, hf, ⟨before, x, front, name, paren, r, o, outside, hsplit, hkind, rfl, hamps, hword,
       hparen, hopened, rfl⟩, fun d D' hD' _ hbody' => ?_⟩
    exact hstep.latestAt (ha.between hsplit).tail (by omega) hlast c rfl d D' hD' hbody'

end Pass

/-! ### Extents around methods -/

open Pass (HeaderWritten Placed final)

variable {C D : Class} {c d m i : Nat}

/-- A lexeme is known by its position. -/
theorem Accepted.eq_of_index (ha : Accepted ts found) {y z : Lexeme}
    (hy : y ∈ Lexeme.ofTokens false ts) (hz : z ∈ Lexeme.ofTokens false ts)
    (heq : y.index = z.index) : y = z := by
  have hrising := (Lexeme.rising_ahead ha.indexed 0).pairwise
  rw [Lexeme.ahead_zero] at hrising
  have hnodup : ((Lexeme.ofTokens false ts).map (·.index)).Nodup :=
    List.pairwise_map.mpr (hrising.imp Nat.ne_of_lt)
  exact List.inj_on_of_nodup_map hnodup hy hz heq

/-- The body of a class begins with a brace. -/
theorem exists_brace_of_header (ha : Accepted ts found) (hC : HeaderWritten ts found C) :
    ∃ y ∈ Lexeme.ofTokens false ts, y.is "\x7b" ∧ y.index = C.bodyStarts := by
  obtain ⟨before, x, after, hsplit, _, _, hheader⟩ := hC
  rw [← List.reverse_reverse before] at hsplit
  obtain ⟨read, y, r, rfl, hindex, hbrace, _⟩ :=
    hheader.open_cases (List.pairwise_cons.mp (ha.rising hsplit).1).2
  refine ⟨y, ?_, hbrace, hindex⟩
  rw [hsplit]
  simp

/-- The innermost bracket around a lexeme begins behind all others around it. -/
theorem Accepted.le_innermost (ha : Accepted ts found)
    (hsplit : Lexeme.ofTokens false ts = before.reverse ++ x :: after) {o : Token}
    {outside : List Token} (hopened : Lexeme.opened before = o :: outside) {k e : Nat}
    (hpair : (k, e) ∈ found) (hfrom : k < x.index) (hto : x.index ≤ e) : k ≤ o.index := by
  have hk := (ha.mem_opened_iff hsplit).mpr ⟨e, hpair, hfrom, hto⟩
  have hpairwise := ha.opened_pairwise hsplit
  rw [hopened] at hk hpairwise
  obtain ⟨t, ht, rfl⟩ := List.mem_map.mp hk
  rcases List.mem_cons.mp ht with rfl | ht
  · exact Nat.le_refl _
  · exact Nat.le_of_lt ((List.pairwise_cons.mp hpairwise).1 t ht)

section Front

variable {front r : List Lexeme} {name paren y : Lexeme}

/-- The parameters of a function begin in front of the next brace. -/
theorem mem_of_front {b r' : List Lexeme} (hamps : ∀ z ∈ front, z.is "&")
    (hname : name.isIdentifier) (hparen : paren.is "(") (hbrace : y.is "\x7b")
    (hrising : (b ++ y :: r').Pairwise (·.index < ·.index))
    (hsame : front ++ name :: paren :: r = b ++ y :: r') : paren ∈ b := by
  have hmem : paren ∈ b ++ y :: r' := by
    rw [← hsame]
    simp
  refine (List.mem_append.mp hmem).resolve_right fun hbeyond => ?_
  have hle : y.index ≤ paren.index := by
    rcases List.mem_cons.mp hbeyond with heq | hbeyond
    · rw [heq]
    · have hlater := (List.pairwise_append.mp hrising).2.1
      exact Nat.le_of_lt ((List.pairwise_cons.mp hlater).1 paren hbeyond)
  have hymem : y ∈ front ++ name :: paren :: r := by
    rw [hsame]
    simp
  rw [← hsame] at hrising
  obtain ⟨_, hrising⟩ := List.pairwise_cons.mp (List.pairwise_append.mp hrising).2.1
  rcases List.mem_append.mp hymem with hy | hy
  · exact absurd ((Lexeme.text_of_is hbrace).symm.trans (Lexeme.text_of_is (hamps y hy))) (by decide)
  rcases List.mem_cons.mp hy with rfl | hy
  · rw [Lexeme.not_isIdentifier_of_is hbrace] at hname
    contradiction
  rcases List.mem_cons.mp hy with rfl | hy
  · exact absurd ((Lexeme.text_of_is hbrace).symm.trans (Lexeme.text_of_is hparen)) (by decide)
  · have := (List.pairwise_cons.mp hrising).1 y hy
    omega

/-- No parameters of a function stand for the type of an enumeration. -/
theorem not_typed_of_front {a s : List Lexeme} {first colon : Lexeme} (hword : x.isIdentifier)
    (hamps : ∀ z ∈ front, z.is "&") (hname : name.isIdentifier) (hparen : paren.is "(")
    (hcolon : colon.is ":") (hrising : (first :: colon :: paren :: s).Pairwise (·.index < ·.index)) :
    a ++ x :: (front ++ name :: paren :: r) ≠ first :: colon :: paren :: s := by
  intro hs
  cases a with
  | nil =>
    have hfront := (List.cons.inj hs).2
    cases front with
    | nil =>
      rw [(List.cons.inj hfront).1, Lexeme.not_isIdentifier_of_is hcolon] at hname
      contradiction
    | cons amp front =>
      rw [← (List.cons.inj hfront).1] at hcolon
      have hamp := hamps amp List.mem_cons_self
      exact absurd ((Lexeme.text_of_is hcolon).symm.trans (Lexeme.text_of_is hamp)) (by decide)
  | cons w a =>
    have hrest := (List.cons.inj hs).2
    have hxmem : x ∈ colon :: paren :: s := by
      rw [← hrest]
      simp
    have hxparen : x.index < paren.index := by
      rw [← hs] at hrising
      obtain ⟨_, hrising, _⟩ := List.pairwise_append.mp hrising
      exact (List.pairwise_cons.mp hrising).1 paren (by simp)
    obtain ⟨_, hrising⟩ := List.pairwise_cons.mp (List.pairwise_cons.mp hrising).2
    rcases List.mem_cons.mp hxmem with rfl | hxmem
    · rw [Lexeme.not_isIdentifier_of_is hcolon] at hword
      contradiction
    rcases List.mem_cons.mp hxmem with rfl | hxmem
    · rw [Lexeme.not_isIdentifier_of_is hparen] at hword
      contradiction
    · have := (List.pairwise_cons.mp hrising).1 x hxmem
      omega

end Front

/-- The header of a class that begins in another one's header holds no method of that one. -/
theorem not_placed_in_header (ha : Accepted ts found) (hp : Placed ts C.bodyStarts i)
    (hC : HeaderWritten ts found C) (hD : HeaderWritten ts found D) (hCD : C.index < D.index)
    (hfrom : D.index < i) (hto : i ≤ D.bodyStarts) : False := by
  obtain ⟨before, x, front, name, paren, r, o, outside, hsplit, hword, rfl, hamps, hname, hparen,
    hopened, ho⟩ := hp
  have hwritten := hD
  obtain ⟨before', x', after', hsplit', _, hx', hheader'⟩ := hD
  rw [← List.reverse_reverse before'] at hsplit'
  obtain ⟨hbehind, hrising⟩ := List.pairwise_cons.mp (ha.rising hsplit').1
  obtain ⟨read, y, r', rfl, hy, hbrace, hread⟩ := hheader'.open_cases hrising
  have hlater := (List.pairwise_append.mp hrising).2.1
  -- the method stands in front of the body
  have hxread : x ∈ read := by
    have hxfile : x ∈ Lexeme.ofTokens false ts := by
      rw [hsplit]
      simp
    rcases List.mem_append.mp (ha.mem_after hsplit' hxfile (by omega)) with hin | hbeyond
    · exact hin
    · rcases List.mem_cons.mp hbeyond with rfl | hbeyond
      · rw [Lexeme.not_isIdentifier_of_is hbrace] at hword
        contradiction
      · have := (List.pairwise_cons.mp hlater).1 x hbeyond
        omega
  obtain ⟨a, b, rfl⟩ := List.append_of_mem hxread
  rw [List.append_assoc, List.cons_append] at hsplit' hrising hread hbehind
  have hsame : front ++ name :: paren :: r = b ++ y :: r' := by
    have hsplit'' : Lexeme.ofTokens false ts =
        (a.reverse ++ x' :: before'.reverse).reverse ++ x :: (b ++ y :: r') := by
      rw [hsplit']
      simp
    exact (ha.split_unique hsplit hsplit'' rfl).2.2
  obtain ⟨_, hxrising, _⟩ := List.pairwise_append.mp hrising
  obtain ⟨hxbehind, hbrising⟩ := List.pairwise_cons.mp hxrising
  have hparenread := mem_of_front hamps hname hparen hbrace hbrising hsame
  have hxparen := hxbehind paren (List.mem_append_left _ hparenread)
  have hopen : paren.isOpenBracket :=
    Lexeme.isOpenBracket_of_is ha.long (Accepted.mem hsplit (y := paren) (by simp)).1 (Or.inl rfl)
      hparen
  rcases hread paren (by simp [hparenread]) hopen with ⟨q, hq, hqparen, z, _, hargs, _, hto'⟩ |
    ⟨first, colon, s, hs, hcolon⟩
  · -- the method stands in the arguments of the header, and so does the body around it
    have hargs : (q.index, z.index) ∈ found := by
      rcases hargs with hargs | hargs
      · exact hargs
      · have := ha.lt_of_mem hargs
        omega
    have hqx : q.index < x.index := by
      cases a with
      | nil =>
        obtain rfl : x = q := Option.some.inj hq
        rw [Lexeme.not_isIdentifier_of_is hqparen] at hword
        contradiction
      | cons w a =>
        obtain rfl : w = q := Option.some.inj hq
        exact (List.pairwise_cons.mp hrising).1 x (by simp)
    have hqafter := List.mem_of_mem_head? hq
    have hDq := hbehind q hqafter
    have hqo := ha.le_innermost hsplit hopened hargs hqx (by omega)
    have hox : o.index < x.index := by
      have hmem := ha.mem_opened_iff (k := o.index) hsplit
      rw [hopened] at hmem
      obtain ⟨_, _, hlt, _⟩ := hmem.mp (List.mem_map_of_mem List.mem_cons_self)
      exact hlt
    have hne : q.index ≠ C.bodyStarts := by
      intro heq
      obtain ⟨w, hw, hwbrace, hwindex⟩ := exists_brace_of_header ha hC
      have hqlexeme : q ∈ Lexeme.ofTokens false ts := by
        rw [hsplit']
        exact List.mem_append_right _ (List.mem_cons_of_mem x' hqafter)
      rw [ha.eq_of_index hw hqlexeme (hwindex.trans heq.symm)] at hwbrace
      exact absurd ((Lexeme.text_of_is hwbrace).symm.trans (Lexeme.text_of_is hqparen)) (by decide)
    have := lt_bodyStarts_of_mem ha hC hwritten hCD (hx' ▸ hDq) (by omega) hargs
    omega
  · rw [← hsame] at hs hrising
    rw [hs] at hrising
    exact not_typed_of_front hword hamps hname hparen hcolon hrising hs

/-- The class of a method is the last one to start among those around its keyword. -/
theorem startsLastAround_of_method (ha : Accepted ts found)
    (hC : (final ts).classes[c]? = some C) (hm : m ∈ C.methods) : ∃ f,
      (final ts).functions[m]? = some f ∧
        StartsLastAround ((final ts).classes.toList.map fun D => (D.index, D.bodyEnds)) f.index c := by
  have hreaches := Pass.reaches_final ts
  obtain ⟨f, hf, hplaced, hlast⟩ := hreaches.methods_placed ha c C hC m hm
  have ⟨before, x, _, _, _, _, o, _, hsplit, _, hindex, _, _, _, hopened, ho⟩ := hplaced
  have hwritten {k : Nat} {D : Class} (hD : (final ts).classes[k]? = some D) :
      HeaderWritten ts found D := hreaches.headers_written ha D (Array.mem_of_getElem? hD)
  have hpair : (C.bodyStarts, C.bodyEnds) ∈ found := by
    rcases (hreaches.classEnd ha c C hC).2 (List.ne_nil_of_mem hm) with hscope | hpair
    · rw [Pass.scopes_final ha] at hscope
      contradiction
    · exact hpair
  have hinside : C.bodyStarts < f.index ∧ f.index ≤ C.bodyEnds := by
    have hmem := ha.mem_opened_iff (k := C.bodyStarts) hsplit
    rw [hopened, ← ho] at hmem
    obtain ⟨e, he, hfrom, hto⟩ := hmem.mp (List.mem_map_of_mem List.mem_cons_self)
    rw [ho] at he hfrom
    rw [ha.partners_unique (Or.inl he) (Or.inl hpair)] at hto
    exact ⟨hindex ▸ hfrom, hindex ▸ hto⟩
  have hfits := classFits_of_final ha hC
  refine ⟨f, hf, (C.index, C.bodyEnds), ?_, ⟨by have := hfits.index; omega, hinside.2⟩, ?_⟩
  · rw [List.getElem?_map, Array.getElem?_toList, hC]
    rfl
  intro d extent hd hcovers
  rw [List.getElem?_map, Array.getElem?_toList, Option.map_eq_some_iff] at hd
  obtain ⟨D, hD, rfl⟩ := hd
  obtain ⟨hfrom, hto⟩ := hcovers
  rw [Prod.Lex.toLex_le_toLex]
  rcases Nat.lt_trichotomy d c with hdc | rfl | hcd
  · exact Or.inl (hreaches.classes_rise ha d c D C hdc hD hC)
  · rw [hC, Option.some.injEq] at hD
    exact Or.inr ⟨by rw [hD], Nat.le_refl _⟩
  -- a class that is declared later does not go around the method
  exfalso
  have hCD := hreaches.classes_rise ha c d C D hcd hC hD
  have hne := hreaches.index_ne ha D (Array.mem_of_getElem? hD) f (Array.mem_of_getElem? hf)
  dsimp only at hfrom hto
  by_cases hheader : f.index ≤ D.bodyStarts
  · exact not_placed_in_header ha hplaced (hwritten hC) (hwritten hD) hCD (by omega) hheader
  rcases (hreaches.classEnd ha d D hD).1 with hends | hpaird
  · omega
  have hle := ha.le_innermost hsplit hopened hpaird (by omega) (by omega)
  rcases Nat.lt_or_eq_of_le hle with hlt | heq
  · have := lt_bodyStarts_of_mem ha (hwritten hC) (hwritten hD) hCD
      (classFits_of_final ha hD).index (by omega) hpaird
    omega
  · have := hlast d D hD hfrom (heq.trans ho)
    omega

end Outline

open Outline

namespace SourceFile

/-- The ways to find the class of a method agree. -/
structure MethodsAgree (file : SourceFile) : Prop where
  /-- The methods of a class are the functions with a name that belong to it. -/
  mem_iff : ∀ (c : Nat) (C : Class), file.classes[c]? = some C → ∀ m, m ∈ C.methods ↔
    ∃ f, file.functions[m]? = some f ∧ f.name.isSome ∧ f.classId = some c
  rise : ∀ C ∈ file.classes, C.methods.Pairwise (· < ·)
  disjoint : ∀ (c d : Nat) (C D : Class), file.classes[c]? = some C → file.classes[d]? = some D →
    c ≠ d → C.methods.Disjoint D.methods
  /-- A class that a function belongs to exists, and the function has its name. -/
  className : ∀ f ∈ file.functions, ∀ c, f.classId = some c →
    ∃ C, file.classes[c]? = some C ∧ f.className = some C.name
  /-- The innermost class around the keyword of a method is its own. -/
  classAt : ∀ (c : Nat) (C : Class), file.classes[c]? = some C → ∀ f ∈ file.methodsOf C,
    file.classOwner[f.index]?.join = some c ∧ file.classAt f.index = some C

theorem getElem?_classes (name : String) (ts : List Token) (found : List (Nat × Nat)) (i : Nat) :
    (ofOutline name ts (ofFinal ts found)).classes[i]? = (Pass.final ts).classes[i]?.map
      (resolveClass ((Pass.final ts).finishedNamespaces ts.length)) :=
  Array.getElem?_map

theorem methodsAgree {name : String} {content : ByteArray} {file : SourceFile}
    (h : parse name content = .ok file) : file.MethodsAgree := by
  obtain ⟨ts, found, _, ha, rfl⟩ := parse_eq_ok h
  have howned := (Pass.reaches_final ts).owned ha
  have hclass {c : Nat} {C : Class}
      (hC : (ofOutline name ts (ofFinal ts found)).classes[c]? = some C) :
      ∃ C', (Pass.final ts).classes[c]? = some C' ∧ C'.name = C.name ∧
        C.methods = methodIds (Pass.final ts).functions c := by
    rw [getElem?_classes] at hC
    obtain ⟨C', hC', rfl⟩ := Option.map_eq_some_iff.mp hC
    exact ⟨C', hC', rfl, howned.methods c C' hC'⟩
  have hmem (c : Nat) (C : Class)
      (hC : (ofOutline name ts (ofFinal ts found)).classes[c]? = some C) (m : Nat) :
      m ∈ C.methods ↔ ∃ f, (ofOutline name ts (ofFinal ts found)).functions[m]? = some f ∧
        f.name.isSome ∧ f.classId = some c := by
    obtain ⟨_, _, _, hmethods⟩ := hclass hC
    rw [hmethods, mem_methodIds, getElem?_functions]
    simp only [Function.isMethodOf_iff, Option.map_eq_some_iff]
    constructor
    · rintro ⟨f, hf, hmethod⟩
      exact ⟨_, ⟨f, hf, rfl⟩, hmethod⟩
    · rintro ⟨_, ⟨f, hf, rfl⟩, hmethod⟩
      exact ⟨f, hf, hmethod⟩
  refine ⟨hmem, ?_, ?_, ?_, ?_⟩
  · intro C hC
    obtain ⟨c, hC⟩ := Array.mem_iff_getElem?.mp hC
    obtain ⟨_, _, _, hmethods⟩ := hclass hC
    rw [hmethods]
    exact methodIds_rise _ _
  · intro c d C D hC hD hne m hmC hmD
    obtain ⟨f, hf, _, hfc⟩ := (hmem c C hC m).mp hmC
    obtain ⟨g, hg, _, hgd⟩ := (hmem d D hD m).mp hmD
    rw [hf, Option.some.injEq] at hg
    rw [hg, hgd, Option.some.injEq] at hfc
    exact hne hfc.symm
  · intro f hf c hc
    obtain ⟨i, f', hf', rfl⟩ := exists_getElem?_of_mem_functions hf
    obtain ⟨C, hC, hname⟩ := howned.className f' (Array.mem_of_getElem? hf') c hc
    refine ⟨resolveClass ((Pass.final ts).finishedNamespaces ts.length) C, ?_, hname⟩
    rw [getElem?_classes, hC]
    rfl
  · intro c C hC f hf
    obtain ⟨m, hm, hfm⟩ := List.mem_filterMap.mp hf
    rw [getElem?_classes] at hC
    obtain ⟨C', hC', rfl⟩ := Option.map_eq_some_iff.mp hC
    obtain ⟨f', hf', hlast⟩ := startsLastAround_of_method ha hC' hm
    rw [getElem?_functions, hf', Option.map_some, Option.some.injEq] at hfm
    have hindex : f.index = f'.index := by
      rw [← hfm]
      rfl
    have hsize : f'.index < ts.length :=
      Nat.lt_trans (functionFits_of_final ha hf').index (functionFits_of_final ha hf').size
    have howner : (ofOutline name ts (ofFinal ts found)).classOwner[f.index]?.join = some c := by
      rw [hindex]
      refine (join_ownerTable_iff hsize _).mpr ?_
      have hextents : (ofFinal ts found).classes.toList.map (fun D => (D.index, D.bodyEnds)) =
          (Pass.final ts).classes.toList.map fun D => (D.index, D.bodyEnds) := by
        unfold ofFinal
        dsimp only
        rw [Array.toList_map, List.map_map]
        rfl
      rw [hextents]
      exact hlast
    refine ⟨howner, ?_⟩
    unfold classAt
    rw [howner, Option.bind_some, getElem?_classes, hC']
    rfl

end SourceFile

end PhpLint
