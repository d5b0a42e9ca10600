import PhpLint.Proofs.Model.Bodies

/-!
How the extents of declarations lie to each other. They are nested as long as every header ends
inside the extent that it begins in, and no two bodies have the same bracket.
-/
namespace PhpLint

namespace Outline

open Pass (HeaderWritten final)

variable {ts : List Token} {found : List (Nat × Nat)} {c d : Class} {f g : Function} {i j e : Nat}

/-! ### Brackets in headers -/

/--
A pair of brackets that begins in the header of a class, behind the keyword of another one, ends in
it.
-/
theorem lt_bodyStarts_of_mem (ha : Accepted ts found) (hc : HeaderWritten ts found c)
    (hd : HeaderWritten ts found d) (hlt : c.index < d.index) {o : Nat} (hdo : d.index < o)
    (hoc : o < c.bodyStarts) (hpair : (o, e) ∈ found) : e < c.bodyStarts := by
  obtain ⟨before, x, after, hsplit, _, hx, hheader⟩ := hc
  obtain ⟨before', x', after', hsplit', hword, hx', hheader'⟩ := hd
  rw [← List.reverse_reverse before] at hsplit
  rw [← List.reverse_reverse before'] at hsplit'
  obtain ⟨z, hz, hopen, rfl⟩ := ha.exists_opening hpair
  have hafter := (List.pairwise_cons.mp (ha.rising hsplit).1).2
  obtain ⟨read, y, r, rfl, hy, _, hread⟩ := hheader.open_cases hafter
  obtain ⟨_, hlater, hbetween⟩ := List.pairwise_append.mp hafter
  -- the bracket stands in front of the body of `c`, so it is one of its header
  have hinside : z ∈ read := by
    rcases List.mem_append.mp (ha.mem_after hsplit hz (by omega)) with hin | hbeyond
    · exact hin
    · rcases List.mem_cons.mp hbeyond with rfl | hbeyond
      · omega
      · have := (List.pairwise_cons.mp hlater).1 z hbeyond
        omega
  rcases hread z hinside hopen with ⟨o, _, _, w, hw, hargs, hfrom, hto⟩ |
    ⟨name, colon, s, hs, hcolon⟩
  · have hwlt := hbetween w hw y List.mem_cons_self
    have hargs : (o.index, w.index) ∈ found := by
      rcases hargs with hargs | hargs
      · exact hargs
      · have := ha.lt_of_mem hargs
        omega
    have := ha.le_of_between hargs hpair hfrom hto
    omega
  · -- the keyword of `d` would be the name of `c`, with the type of an enumeration behind it
    have hx'mem : x' ∈ name :: colon :: z :: s := by
      rw [← hs]
      refine ha.mem_after hsplit ?_ (by omega)
      rw [hsplit']
      exact List.mem_append_right _ List.mem_cons_self
    rw [hs] at hafter hsplit
    rcases List.mem_cons.mp hx'mem with rfl | hx'mem
    · have hsame : Lexeme.ofTokens false ts =
          (x :: before.reverse).reverse ++ x' :: colon :: z :: s := by
        rw [hsplit]
        simp
      have hrest := (ha.split_unique hsplit' hsame rfl).2.2
      rw [hrest] at hheader'
      exact absurd hheader' (Lexeme.not_header_of_colon hcolon)
    · rcases List.mem_cons.mp hx'mem with rfl | hx'mem
      · rw [Lexeme.not_isIdentifier_of_is hcolon] at hword
        contradiction
      · obtain ⟨_, hafter⟩ := List.pairwise_cons.mp hafter
        obtain ⟨_, hafter⟩ := List.pairwise_cons.mp hafter
        rcases List.mem_cons.mp hx'mem with rfl | hx'mem
        · omega
        · have := (List.pairwise_cons.mp hafter).1 x' hx'mem
          omega

/-! ### Records of the pass -/

/-- Two extents are disjoint, or one contains the other. -/
def Laminar (i e j e' : Nat) : Prop :=
  e < j ∨ e' < i ∨ (i ≤ j ∧ e' ≤ e) ∨ (j ≤ i ∧ e ≤ e')

theorem Laminar.symm {e' : Nat} (h : Laminar i e j e') : Laminar j e' i e := by
  unfold Laminar at h ⊢
  omega

/-- An extent that begins inside another one lies in it. -/
theorem Laminar.le {e' : Nat} (h : Laminar i e j e') (hij : i < j) (hje : j ≤ e) (he : j ≤ e') :
    e' ≤ e := by
  unfold Laminar at h
  omega

theorem FunctionFits.headEnd {size : Nat} (h : FunctionFits size f) :
    f.index < f.headEnd ∧ f.headEnd ≤ f.bodyEnds := by
  unfold Function.headEnd
  cases hbody : f.bodyStarts with
  | none => exact ⟨h.index, Nat.le_refl _⟩
  | some b => exact h.body b hbody

theorem functionFits_of_final (ha : Accepted ts found) (hf : (final ts).functions[i]? = some f) :
    FunctionFits ts.length f :=
  ((Pass.reaches_final ts).sound ha).functions f (Array.mem_of_getElem? hf)

theorem classFits_of_final (ha : Accepted ts found) (hc : (final ts).classes[i]? = some c) :
    ClassFits ts.length c :=
  ((Pass.reaches_final ts).sound ha).classes c (Array.mem_of_getElem? hc)

/-- Extents of functions are nested if a header that begins in another function ends there. -/
theorem laminar_functions (ha : Accepted ts found) (hf : (final ts).functions[i]? = some f)
    (hg : (final ts).functions[j]? = some g) (hij : i < j)
    (hhead : f.index < g.index → g.index ≤ f.bodyEnds → g.headEnd ≤ f.bodyEnds) :
    Laminar f.index f.bodyEnds g.index g.bodyEnds := by
  have hrises := (Pass.reaches_final ts).functions_rise ha i j f g hij hf hg
  have hfitsf := (functionFits_of_final ha hf).headEnd
  have hfitsg := (functionFits_of_final ha hg).headEnd
  by_cases hinside : g.index ≤ f.bodyEnds
  · have hends := (Pass.ended_of_final ha hg).le ha (Pass.ended_of_final ha hf) (by omega)
      (hhead (by omega) hinside) (Pass.headEnd_of_final ha hg)
    exact Or.inr (Or.inr (Or.inl ⟨by omega, hends⟩))
  · exact Or.inl (Nat.lt_of_not_le hinside)

/-- So are extents of classes whose bodies are pairs of brackets. -/
theorem laminar_classes (ha : Accepted ts found) (hc : (final ts).classes[i]? = some c)
    (hd : (final ts).classes[j]? = some d) (hij : i < j)
    (hpairc : (c.bodyStarts, c.bodyEnds) ∈ found) (hpaird : (d.bodyStarts, d.bodyEnds) ∈ found)
    (hhead : c.index < d.index → d.index ≤ c.bodyEnds → d.bodyStarts ≤ c.bodyEnds) :
    Laminar c.index c.bodyEnds d.index d.bodyEnds := by
  have hreaches := Pass.reaches_final ts
  have hrises := hreaches.classes_rise ha i j c d hij hc hd
  by_cases hinside : d.index ≤ c.bodyEnds
  · have hhead := hhead hrises hinside
    have hends : d.bodyEnds ≤ c.bodyEnds := by
      rcases Nat.lt_or_ge d.bodyStarts c.bodyStarts with hbody | hbody
      · have hwritten {k : Nat} {c : Class} (hc : (final ts).classes[k]? = some c) :
            HeaderWritten ts found c := hreaches.headers_written ha c (Array.mem_of_getElem? hc)
        have := lt_bodyStarts_of_mem ha (hwritten hc) (hwritten hd) hrises
          (classFits_of_final ha hd).index hbody hpaird
        have := ha.lt_of_mem hpairc
        omega
      · exact ha.le_of_between hpairc hpaird hbody hhead
    exact Or.inr (Or.inr (Or.inl ⟨Nat.le_of_lt hrises, hends⟩))
  · exact Or.inl (Nat.lt_of_not_le hinside)

/-- A method lies in the body of its class if its header ends there. -/
theorem method_inside (ha : Accepted ts found) (hc : (final ts).classes[i]? = some c)
    (hpair : (c.bodyStarts, c.bodyEnds) ∈ found) {m : Nat} (hm : m ∈ c.methods) :
    ∃ f, (final ts).functions[m]? = some f ∧ c.bodyStarts < f.index ∧
      (f.headEnd ≤ c.bodyEnds → f.bodyEnds < c.bodyEnds) := by
  obtain ⟨f, e, hf, hfrom, _, hpair'⟩ :=
    (Pass.reaches_final ts).methods_inside ha i c hc m hm
  refine ⟨f, hf, hfrom, fun hhead => ?_⟩
  have hfits := (functionFits_of_final ha hf).headEnd
  have hne : f.headEnd ≠ c.bodyEnds :=
    fun heq => Pass.headEnd_of_final ha hf c.bodyStarts (heq ▸ hpair)
  exact (Pass.ended_of_final ha hf).lt ha hpair (by omega) (by omega)

theorem exists_getElem?_of_mem_classes {name : String}
    (hc : c ∈ (SourceFile.ofOutline name ts (ofFinal ts found)).classes) :
    ∃ (i : Nat) (c' : Class), (final ts).classes[i]? = some c' ∧
      c = resolveClass ((final ts).finishedNamespaces ts.length) c' := by
  obtain ⟨c', hc', rfl⟩ := Array.mem_map.mp hc
  obtain ⟨i, hi⟩ := Array.mem_iff_getElem?.mp hc'
  exact ⟨i, c', hi, rfl⟩

theorem exists_getElem?_of_mem_functions {name : String}
    (hf : f ∈ (SourceFile.ofOutline name ts (ofFinal ts found)).functions) :
    ∃ (i : Nat) (f' : Function), (final ts).functions[i]? = some f' ∧
      f = resolveFunction ((final ts).finishedNamespaces ts.length) f' := by
  obtain ⟨f', hf', rfl⟩ := Array.mem_map.mp hf
  obtain ⟨i, hi⟩ := Array.mem_iff_getElem?.mp hf'
  exact ⟨i, f', hi, rfl⟩

theorem getElem?_functions (name : String) (ts : List Token) (found : List (Nat × Nat)) (i : Nat) :
    (SourceFile.ofOutline name ts (ofFinal ts found)).functions[i]? =
      (final ts).functions[i]?.map (resolveFunction ((final ts).finishedNamespaces ts.length)) :=
  Array.getElem?_map

/-- Records that take a bracket during the pass are records of the file. -/
theorem exists_namespace_of_holds (name : String) (ha : Accepted ts found) {P : Nat → Nat → Prop}
    {record : Nat} (h : Holds (final ts).namespaces
      (fun ns => P ns.index ns.bodyStarts ∧ ns.index < ts.length) record) :
    ∃ ns ∈ (SourceFile.ofOutline name ts (ofFinal ts found)).namespaces,
      P ns.index ns.bodyStarts := by
  have hkept (ns : Namespace) : (Pass.endLast (ts.length - 1) ns).index = ns.index ∧
      (Pass.endLast (ts.length - 1) ns).bodyStarts = ns.bodyStarts := by
    rcases Pass.endLast_cases (ts.length - 1) ns with heq | ⟨heq, _⟩
    · rw [heq]
      exact ⟨rfl, rfl⟩
    · rw [heq]
      exact ⟨rfl, rfl⟩
  obtain ⟨ns, hns, hP, hlt⟩ := h.modify ((final ts).namespaces.size - 1)
    (f := Pass.endLast (ts.length - 1)) fun ns hns => by rwa [(hkept ns).1, (hkept ns).2]
  have hts : ts ≠ [] := List.length_pos_iff.mp (Nat.zero_lt_of_lt hlt)
  refine ⟨ns, ?_, hP⟩
  rw [namespaces_ofOutline name ha hts, Pass.finishedNamespaces_eq ha hts, List.mem_filter]
  refine ⟨Array.mem_toList_iff.mpr (Array.mem_of_getElem? hns), ?_⟩
  simp only [decide_eq_true_eq]
  omega

end Outline

open Outline

namespace SourceFile

/-- The extents of the declarations lie in the file. -/
structure ExtentsInside (file : SourceFile) : Prop where
  classes : ∀ c ∈ file.classes, c.index ≤ c.bodyEnds ∧ c.bodyEnds < file.tokens.size
  functions : ∀ f ∈ file.functions, f.index ≤ f.bodyEnds ∧ f.bodyEnds < file.tokens.size

/-- The body of a class is a pair of brackets. -/
def BodyPaired (file : SourceFile) (c : Class) : Prop :=
  file.pairedBracket c.bodyStarts = some c.bodyEnds

/-- The bracket of a class is the body of a declaration that starts behind its keyword. -/
def BodyTaken (file : SourceFile) (c : Class) : Prop :=
  (∃ d ∈ file.classes, c.index < d.index ∧ d.bodyStarts = c.bodyStarts) ∨
    (∃ f ∈ file.functions, c.index < f.index ∧ f.bodyStarts = some c.bodyStarts) ∨
    ∃ ns ∈ file.namespaces, c.index < ns.index ∧ ns.index < c.bodyStarts ∧
      ns.bodyStarts = c.bodyStarts

/-- The extents of the declarations of a file are nested. -/
structure Forest (file : SourceFile) : Prop extends file.ExtentsInside where
  functionsNested : ∀ f ∈ file.functions, ∀ g ∈ file.functions,
    Laminar f.index f.bodyEnds g.index g.bodyEnds
  classesNested : ∀ c ∈ file.classes, ∀ d ∈ file.classes,
    Laminar c.index c.bodyEnds d.index d.bodyEnds
  bodies : ∀ c ∈ file.classes, file.BodyPaired c
  methods : ∀ c ∈ file.classes, ∀ m ∈ c.methods, ∃ f, file.functions[m]? = some f ∧
    c.bodyStarts < f.index ∧ f.bodyEnds < c.bodyEnds

/-- A header ends inside the extent that it begins in. -/
structure HeadersInside (file : SourceFile) : Prop where
  functions : ∀ f ∈ file.functions, ∀ g ∈ file.functions, f.index < g.index →
    g.index ≤ f.bodyEnds → g.headEnd ≤ f.bodyEnds
  classes : ∀ c ∈ file.classes, ∀ d ∈ file.classes, c.index < d.index →
    d.index ≤ c.bodyEnds → d.bodyStarts ≤ c.bodyEnds
  methods : ∀ c ∈ file.classes, ∀ f ∈ file.methodsOf c, f.headEnd ≤ c.bodyEnds

instance (file : SourceFile) (c : Class) : Decidable (file.BodyPaired c) :=
  inferInstanceAs (Decidable (_ = _))

instance (file : SourceFile) : Decidable file.HeadersInside :=
  decidable_of_iff
    ((∀ f ∈ file.functions, ∀ g ∈ file.functions, f.index < g.index →
        g.index ≤ f.bodyEnds → g.headEnd ≤ f.bodyEnds) ∧
      (∀ c ∈ file.classes, ∀ d ∈ file.classes, c.index < d.index →
        d.index ≤ c.bodyEnds → d.bodyStarts ≤ c.bodyEnds) ∧
      ∀ c ∈ file.classes, ∀ f ∈ file.methodsOf c, f.headEnd ≤ c.bodyEnds)
    ⟨fun ⟨hfunctions, hclasses, hmethods⟩ => ⟨hfunctions, hclasses, hmethods⟩,
      fun ⟨hfunctions, hclasses, hmethods⟩ => ⟨hfunctions, hclasses, hmethods⟩⟩

theorem bodyPaired_iff (name : String) {ts : List Token} {found : List (Nat × Nat)}
    (ha : Accepted ts found) {c : Class} {i : Nat} (hc : (Pass.final ts).classes[i]? = some c)
    (records : List Namespace) :
    (ofOutline name ts (ofFinal ts found)).BodyPaired (resolveClass records c) ↔
      (c.bodyStarts, c.bodyEnds) ∈ found := by
  refine (ha.pairedBracket_iff name).trans ⟨fun h => h.resolve_right fun hback => ?_, Or.inl⟩
  have hlt := ha.lt_of_mem hback
  have hle := (classFits_of_final ha hc).body
  exact absurd hlt (Nat.not_lt_of_le hle)

theorem bodyTaken_of_takes (name : String) {ts : List Token} {found : List (Nat × Nat)}
    (ha : Accepted ts found) {c : Class} {scope : Scope}
    (h : (Pass.final ts).Takes c.index ts.length c.bodyStarts scope) (records : List Namespace) :
    (ofOutline name ts (ofFinal ts found)).BodyTaken (resolveClass records c) := by
  cases scope with
  | block => exact h.elim
  | classBody id =>
    obtain ⟨d, hd, hafter, hstart⟩ := h
    exact Or.inl ⟨_, Array.mem_map_of_mem (Array.mem_of_getElem? hd), hafter, hstart⟩
  | functionBody id =>
    obtain ⟨f, hf, hafter, hstart⟩ := h
    exact Or.inr (Or.inl ⟨_, Array.mem_map_of_mem (Array.mem_of_getElem? hf), hafter, hstart⟩)
  | namespaceBody record =>
    exact Or.inr (Or.inr (exists_namespace_of_holds name ha
      (P := fun i k => c.index < i ∧ i < c.bodyStarts ∧ k = c.bodyStarts)
      (Holds.imp h fun ns ⟨hafter, hbefore, hstart, hlt⟩ => ⟨⟨hafter, hbefore, hstart⟩, hlt⟩)))

/--
The extents of an accepted file are nested if and only if no header goes on behind the extent that
it begins in and the bodies of classes are pairs of brackets. A body that is none has lost its
bracket to a declaration in the header of the class.
-/
theorem forest_iff_headersInside {name : String} {content : ByteArray} {file : SourceFile}
    (h : parse name content = .ok file) :
    file.ExtentsInside ∧ (∀ c ∈ file.classes, file.BodyPaired c ∨ file.BodyTaken c) ∧
      (file.Forest ↔ (∀ c ∈ file.classes, file.BodyPaired c) ∧ file.HeadersInside) := by
  obtain ⟨ts, found, _, ha, rfl⟩ := parse_eq_ok h
  have hinside : (ofOutline name ts (ofFinal ts found)).ExtentsInside := by
    refine ⟨fun c hc => ?_, fun f hf => ?_⟩
    · obtain ⟨i, c', hc', rfl⟩ := exists_getElem?_of_mem_classes hc
      have hfits := classFits_of_final ha hc'
      exact ⟨Nat.le_trans (Nat.le_of_lt hfits.index) hfits.body, hfits.size⟩
    · obtain ⟨i, f', hf', rfl⟩ := exists_getElem?_of_mem_functions hf
      have hfits := functionFits_of_final ha hf'
      exact ⟨Nat.le_of_lt hfits.index, hfits.size⟩
  refine ⟨hinside, fun c hc => ?_, fun hforest => ⟨hforest.bodies, ?_, ?_, ?_⟩, ?_⟩
  · obtain ⟨i, c', hc', rfl⟩ := exists_getElem?_of_mem_classes hc
    rcases Pass.pair_or_takes_of_final ha hc' with hpair | ⟨scope, htakes⟩
    · exact Or.inl ((bodyPaired_iff name ha hc' _).mpr hpair)
    · exact Or.inr (bodyTaken_of_takes name ha htakes _)
  · intro f hf g hg hlt hle
    obtain ⟨i, g', hg', rfl⟩ := exists_getElem?_of_mem_functions hg
    have hhead := (functionFits_of_final ha hg').headEnd.2
    exact Nat.le_trans hhead
      ((hforest.functionsNested f hf _ hg).le hlt hle (hinside.functions _ hg).1)
  · intro c hc d hd hlt hle
    obtain ⟨i, d', hd', rfl⟩ := exists_getElem?_of_mem_classes hd
    have hbody := (classFits_of_final ha hd').body
    exact Nat.le_trans hbody
      ((hforest.classesNested c hc _ hd).le hlt hle (hinside.classes _ hd).1)
  · intro c hc f hf
    obtain ⟨m, hm, hf⟩ := List.mem_filterMap.mp hf
    obtain ⟨f', hf', _, hends⟩ := hforest.methods c hc m hm
    rw [hf, Option.some.injEq] at hf'
    obtain ⟨i, g, hg, heq⟩ := exists_getElem?_of_mem_functions (Array.mem_of_getElem? hf)
    have hhead : f.headEnd ≤ f.bodyEnds := heq ▸ (functionFits_of_final ha hg).headEnd.2
    rw [← hf'] at hends
    omega
  · rintro ⟨hpaired, hheads⟩
    refine ⟨hinside, ?_, ?_, hpaired, ?_⟩
    · intro f hf g hg
      obtain ⟨i, f', hf', rfl⟩ := exists_getElem?_of_mem_functions hf
      obtain ⟨j, g', hg', rfl⟩ := exists_getElem?_of_mem_functions hg
      rcases Nat.lt_trichotomy i j with hij | rfl | hij
      · have hhead := hheads.functions _ hf _ hg
        have hnested := laminar_functions ha hf' hg' hij hhead
        exact hnested
      · rw [hf', Option.some.injEq] at hg'
        rw [hg']
        exact Or.inr (Or.inr (Or.inl ⟨Nat.le_refl _, Nat.le_refl _⟩))
      · have hhead := hheads.functions _ hg _ hf
        have hnested := laminar_functions ha hg' hf' hij hhead
        exact hnested.symm
    · intro c hc d hd
      have hpairc := hpaired c hc
      have hpaird := hpaired d hd
      obtain ⟨i, c', hc', rfl⟩ := exists_getElem?_of_mem_classes hc
      obtain ⟨j, d', hd', rfl⟩ := exists_getElem?_of_mem_classes hd
      rw [bodyPaired_iff name ha hc'] at hpairc
      rw [bodyPaired_iff name ha hd'] at hpaird
      rcases Nat.lt_trichotomy i j with hij | rfl | hij
      · have hhead := hheads.classes _ hc _ hd
        have hnested := laminar_classes ha hc' hd' hij hpairc hpaird hhead
        exact hnested
      · rw [hc', Option.some.injEq] at hd'
        rw [hd']
        exact Or.inr (Or.inr (Or.inl ⟨Nat.le_refl _, Nat.le_refl _⟩))
      · have hhead := hheads.classes _ hd _ hc
        have hnested := laminar_classes ha hd' hc' hij hpaird hpairc hhead
        exact hnested.symm
    · intro c hc m hm
      have hpair := hpaired c hc
      have hheads := hheads.methods c hc
      obtain ⟨i, c', hc', rfl⟩ := exists_getElem?_of_mem_classes hc
      rw [bodyPaired_iff name ha hc'] at hpair
      obtain ⟨f, hf, hfrom, hends⟩ := method_inside ha hc' hpair hm
      have hget : (ofOutline name ts (ofFinal ts found)).functions[m]? =
          some (resolveFunction ((Pass.final ts).finishedNamespaces ts.length) f) := by
        rw [getElem?_functions, hf]
        rfl
      have hhead := hheads _ (List.mem_filterMap.mpr ⟨m, hm, hget⟩)
      exact ⟨_, hget, hfrom, hends hhead⟩

/-- Declarations in classes, functions and expressions. -/
theorem forest_iff_headersInside_nested :
    ∃ file, parse "a.php"
        "<?php class A { function f() { return fn() => 1; } } function g() { new class { }; }".toUTF8 =
          .ok file ∧
      file.classes.size = 2 ∧ file.functions.size = 3 ∧ file.Forest := by
  have hchecked : (parse "a.php"
      "<?php class A { function f() { return fn() => 1; } } function g() { new class { }; }".toUTF8
        ).toOption.map (fun file => (file.classes.size, file.functions.size,
          decide ((∀ c ∈ file.classes, file.BodyPaired c) ∧ file.HeadersInside))) =
      some (2, 3, true) := by
    decide +kernel
  cases hparse : parse "a.php"
      "<?php class A { function f() { return fn() => 1; } } function g() { new class { }; }".toUTF8 with
  | error e =>
    rw [hparse] at hchecked
    contradiction
  | ok file =>
    rw [hparse] at hchecked
    obtain ⟨hclasses, hrest⟩ := Prod.mk.inj (Option.some.inj hchecked)
    obtain ⟨hfunctions, hholds⟩ := Prod.mk.inj hrest
    exact ⟨file, rfl, hclasses, hfunctions,
      (forest_iff_headersInside hparse).2.2.mpr (of_decide_eq_true hholds)⟩

/-- The return type of a method goes on behind the class. -/
theorem return_type_leaves_class :
    ∃ file, parse "a.php" "<?php class A { function b(): X } function c() { }".toUTF8 = .ok file ∧
      ¬ file.Forest := by
  have hextents : (parse "a.php" "<?php class A { function b(): X } function c() { }".toUTF8
      ).toOption.map (fun file => (file.classes.toList.map fun c => (c.methods, c.bodyEnds),
        file.functions.toList.map (·.bodyEnds))) = some ([([0], 16)], [26]) := by
    decide +kernel
  cases hparse : parse "a.php" "<?php class A { function b(): X } function c() { }".toUTF8 with
  | error e =>
    rw [hparse] at hextents
    contradiction
  | ok file =>
    rw [hparse] at hextents
    obtain ⟨hclasses, hfunctions⟩ := Prod.mk.inj (Option.some.inj hextents)
    refine ⟨file, rfl, fun hforest => ?_⟩
    obtain ⟨c, hc, heq⟩ : ∃ c ∈ file.classes.toList, (c.methods, c.bodyEnds) = ([0], 16) := by
      apply List.mem_map.mp
      rw [hclasses]
      exact List.mem_singleton_self _
    obtain ⟨hmethods, hends⟩ := Prod.mk.inj heq
    obtain ⟨f, hf, _, hlt⟩ := hforest.methods c (Array.mem_toList_iff.mp hc) 0 (by simp [hmethods])
    have hfends : f.bodyEnds ∈ file.functions.toList.map (·.bodyEnds) :=
      List.mem_map_of_mem (Array.mem_toList_iff.mpr (Array.mem_of_getElem? hf))
    rw [hfunctions, List.mem_singleton] at hfends
    omega

end SourceFile

end PhpLint
