import PhpLint.Project.Declaration
import PhpLint.Proofs.Model.Method

/-!
The functions among the declarations of a file. Every function with a name is declared once, as a
method of its class or as a free function, unless its class has no name.
-/
namespace PhpLint.SourceFile

open Outline

variable {file : SourceFile} {f : Function} {m : Nat}

/-- The functions with a name that belong to no class, by their numbers. -/
def freeIds (file : SourceFile) : List Nat :=
  (List.range file.functions.size).filter fun m =>
    file.functions[m]?.any fun f => f.name.isSome && f.classId.isNone

/-- The classes with a name. -/
def namedClasses (file : SourceFile) : List Class :=
  file.classes.toList.filter (·.nameIndex.isSome)

/-- The functions that are declared, by their numbers: free ones and methods of classes with a name. -/
def declaredIds (file : SourceFile) : List Nat :=
  file.freeIds ++ file.namedClasses.flatMap (·.methods)

/-- How often a function is declared. -/
def timesDeclared (file : SourceFile) (f : Function) : Nat :=
  if f.name.isNone then 0
  else match f.classId with
    | none => 1
    | some c => if file.classes[c]?.any (·.nameIndex.isSome) then 1 else 0

/-- The declarations of a file list functions by their numbers, each as often as it is declared. -/
structure DeclaresEachOnce (file : SourceFile) : Prop where
  functions : List.Forall₂
    (fun m d => ∃ f, file.functions[m]? = some f ∧ file.functionDeclaration? f = some d)
    file.freeIds file.declarations.functions
  classes : List.Forall₂
    (fun C d => d = { file.classDeclaration C with methods := d.methods } ∧ List.Forall₂
      (fun m e => ∃ f, file.functions[m]? = some f ∧ file.methodDeclaration? f = some e)
      C.methods d.methods)
    file.namedClasses file.declarations.classes
  count : ∀ m f, file.functions[m]? = some f → file.declaredIds.count m = file.timesDeclared f

theorem mem_freeIds : m ∈ file.freeIds ↔
    ∃ f, file.functions[m]? = some f ∧ f.name.isSome ∧ f.classId = none := by
  unfold freeIds
  rw [List.mem_filter, List.mem_range, Option.any_eq_true]
  simp only [Bool.and_eq_true, Option.isNone_iff_eq_none]
  refine ⟨fun ⟨_, h⟩ => h, fun h => ⟨?_, h⟩⟩
  obtain ⟨f, hf, _⟩ := h
  exact (Array.getElem?_eq_some_iff.mp hf).1

theorem mem_namedClasses {C : Class} :
    C ∈ file.namedClasses ↔ ∃ c : Nat, file.classes[c]? = some C ∧ C.nameIndex.isSome := by
  unfold namedClasses
  rw [List.mem_filter, Array.mem_toList_iff, Array.mem_iff_getElem?, exists_and_right]

/-- A function is declared if it has a name, and its class has one too if it belongs to one. -/
theorem timesDeclared_eq_one_iff : file.timesDeclared f = 1 ↔ f.name.isSome ∧
    (f.classId = none ∨ ∃ C ∈ file.namedClasses, ∃ c, f.classId = some c ∧
      file.classes[c]? = some C) := by
  unfold timesDeclared
  cases hname : f.name with
  | none => simp
  | some name =>
    rw [if_neg (by simp)]
    cases hclass : f.classId with
    | none => simp
    | some c =>
      dsimp only
      rw [ite_eq_left_iff, Option.any_eq_true]
      simp only [mem_namedClasses, Option.isSome_some, true_and, reduceCtorEq, false_or,
        Option.some.injEq, Nat.zero_ne_one, imp_false, not_not]
      constructor
      · rintro ⟨C, hC, hnamed⟩
        exact ⟨C, ⟨c, hC, hnamed⟩, c, rfl, hC⟩
      · rintro ⟨C, ⟨_, _, hnamed⟩, _, rfl, hC⟩
        exact ⟨C, hC, hnamed⟩

theorem timesDeclared_le_one (file : SourceFile) (f : Function) : file.timesDeclared f ≤ 1 := by
  unfold timesDeclared
  split
  · exact Nat.zero_le 1
  · split
    · exact Nat.le_refl 1
    · split
      · exact Nat.le_refl 1
      · exact Nat.zero_le 1

theorem mem_declaredIds (h : file.MethodsAgree) (hf : file.functions[m]? = some f) :
    m ∈ file.declaredIds ↔ file.timesDeclared f = 1 := by
  unfold declaredIds
  rw [List.mem_append, mem_freeIds, List.mem_flatMap, timesDeclared_eq_one_iff]
  constructor
  · rintro (⟨g, hg, hname, hclass⟩ | ⟨C, hC, hm⟩)
    · obtain rfl := Option.some.inj (hf.symm.trans hg)
      exact ⟨hname, Or.inl hclass⟩
    · obtain ⟨c, hc, _⟩ := mem_namedClasses.mp hC
      obtain ⟨g, hg, hname, hclass⟩ := (h.mem_iff c C hc m).mp hm
      obtain rfl := Option.some.inj (hf.symm.trans hg)
      exact ⟨hname, Or.inr ⟨C, hC, c, hclass, hc⟩⟩
  · rintro ⟨hname, hclass | ⟨C, hC, c, hclass, hc⟩⟩
    · exact Or.inl ⟨f, hf, hname, hclass⟩
    · exact Or.inr ⟨C, hC, (h.mem_iff c C hc m).mpr ⟨f, hf, hname, hclass⟩⟩

/-- No function is declared twice. -/
theorem nodup_declaredIds (h : file.MethodsAgree) : file.declaredIds.Nodup := by
  unfold declaredIds
  rw [List.nodup_append', List.nodup_flatMap]
  refine ⟨List.nodup_range.filter _, ⟨fun C hC => ?_, ?_⟩, fun m hm hm' => ?_⟩
  · obtain ⟨c, hc, _⟩ := mem_namedClasses.mp hC
    exact (h.rise C (Array.mem_of_getElem? hc)).imp Nat.ne_of_lt
  · refine List.Pairwise.filter _ (List.pairwise_iff_getElem.mpr fun c d hc hd hcd => ?_)
    exact h.disjoint c d _ _ (by simp) (by simp) (Nat.ne_of_lt hcd)
  · obtain ⟨f, hf, _, hfree⟩ := mem_freeIds.mp hm
    obtain ⟨C, hC, hm'⟩ := List.mem_flatMap.mp hm'
    obtain ⟨c, hc, _⟩ := mem_namedClasses.mp hC
    obtain ⟨g, hg, _, hclass⟩ := (h.mem_iff c C hc m).mp hm'
    rw [hf, Option.some.injEq] at hg
    rw [hg, hclass] at hfree
    contradiction

/-! ### The lists of declarations -/

/-- A list of which every entry has a value, beside the values. -/
theorem forall₂_filterMap {α β : Type} {g : α → Option β} {l : List α} (h : ∀ a ∈ l, (g a).isSome) :
    List.Forall₂ (fun a b => g a = some b) l (l.filterMap g) := by
  induction l with
  | nil => exact .nil
  | cons a l ih =>
    obtain ⟨ha, hl⟩ := List.forall_mem_cons.mp h
    obtain ⟨b, hb⟩ := Option.isSome_iff_exists.mp ha
    rw [List.filterMap_cons_some hb]
    exact .cons hb (ih hl)

theorem filterMap_range_getElem? {α : Type} (l : List α) :
    (List.range l.length).filterMap (l[·]?) = l := by
  induction l using List.reverseRecOn with
  | nil => rfl
  | append_singleton l a ih =>
    have hfront : (List.range l.length).filterMap ((l ++ [a])[·]?) = l := by
      rw [List.filterMap_congr fun m hm =>
        List.getElem?_append_left (List.mem_range.mp hm), ih]
    rw [List.length_append, List.length_singleton, List.range_succ, List.filterMap_append, hfront,
      List.filterMap_cons_some List.getElem?_concat_length, List.filterMap_nil]

theorem declarations_functions (file : SourceFile) : file.declarations.functions =
    file.freeIds.filterMap fun m => file.functions[m]?.bind file.functionDeclaration? := by
  change (file.functions.toList.filter (·.classId.isNone)).filterMap file.functionDeclaration? = _
  unfold freeIds
  rw [← filterMap_range_getElem? file.functions.toList, List.filter_filterMap,
    List.filterMap_filterMap, List.filterMap_filter, Array.length_toList]
  refine List.filterMap_congr fun m _ => ?_
  rw [Array.getElem?_toList]
  cases file.functions[m]? with
  | none => rfl
  | some f =>
    unfold functionDeclaration?
    rw [Option.filter_some]
    cases hname : f.name <;> cases hclass : f.classId <;> simp [hname, hclass]

theorem methods_classDeclaration (file : SourceFile) (C : Class) :
    (file.classDeclaration C).methods =
      C.methods.filterMap fun m => file.functions[m]?.bind file.methodDeclaration? := by
  change (C.methods.filterMap (file.functions[·]?)).filterMap file.methodDeclaration? = _
  rw [List.filterMap_filterMap]

/-- Where the lists of methods agree with the functions, each function is declared once. -/
theorem declaresEachOnce (h : file.MethodsAgree) : file.DeclaresEachOnce := by
  refine ⟨?_, ?_, fun m f hf => ?_⟩
  · rw [declarations_functions]
    refine (forall₂_filterMap fun m hm => ?_).imp fun m d hd => ?_
    · obtain ⟨f, hf, hname, _⟩ := mem_freeIds.mp hm
      rw [hf, Option.bind_some, functionDeclaration?, Option.isSome_map, hname]
    · exact Option.bind_eq_some_iff.mp hd
  · have hclasses : file.declarations.classes = file.namedClasses.map file.classDeclaration := rfl
    rw [hclasses, List.forall₂_map_right_iff, List.forall₂_same]
    intro C hC
    refine ⟨rfl, ?_⟩
    rw [methods_classDeclaration]
    refine (forall₂_filterMap fun m hm => ?_).imp fun m d hd => ?_
    · obtain ⟨c, hc, _⟩ := mem_namedClasses.mp hC
      obtain ⟨f, hf, hname, _⟩ := (h.mem_iff c C hc m).mp hm
      rw [hf, Option.bind_some, methodDeclaration?, Option.isSome_map, hname]
    · exact Option.bind_eq_some_iff.mp hd
  · have hle := file.timesDeclared_le_one f
    by_cases hm : m ∈ file.declaredIds
    · rw [List.count_eq_one_of_mem (nodup_declaredIds h) hm, (mem_declaredIds h hf).mp hm]
    · rw [List.count_eq_zero_of_not_mem hm]
      rw [mem_declaredIds h hf] at hm
      omega

/--
In a file that is accepted no method or function is lost or counted twice: the functions, the lists of
the classes and the table of classes agree, and the declarations list each function with a name once,
unless its class has none.
-/
theorem methods_declared_once {name : String} {content : ByteArray} {file : SourceFile}
    (h : parse name content = .ok file) : file.MethodsAgree ∧ file.DeclaresEachOnce :=
  ⟨methodsAgree h, declaresEachOnce (methodsAgree h)⟩

/-- Functions inside methods, and a class without a name. -/
theorem methods_declared_once_nested : ∃ file,
    parse "a.php" "<?php class A { function f() { function g() { } new class { function h() { } }; } }".toUTF8
      = .ok file ∧ file.declaredIds = [1, 0] ∧ file.functions.size = 3 ∧
        file.MethodsAgree ∧ file.DeclaresEachOnce := by
  have hids : (parse "a.php"
      "<?php class A { function f() { function g() { } new class { function h() { } }; } }".toUTF8
        ).toOption.map (fun file => (file.declaredIds, file.functions.size)) = some ([1, 0], 3) := by
    decide +kernel
  cases hparse : parse "a.php"
      "<?php class A { function f() { function g() { } new class { function h() { } }; } }".toUTF8 with
  | error e =>
    rw [hparse] at hids
    contradiction
  | ok file =>
    rw [hparse] at hids
    obtain ⟨hids, hsize⟩ := Prod.mk.inj (Option.some.inj hids)
    exact ⟨file, rfl, hids, hsize, methods_declared_once hparse⟩

end PhpLint.SourceFile
