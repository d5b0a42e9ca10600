import PhpLint.Plugin.Bundled
import PhpLint.Proofs.Checked.Usage

/-!
What is found in a file that has been read, by positions. Neither the bundled rules for files nor
the summary of a file run into a trap.
-/
namespace PhpLint.Checked

open Outline Token

variable {ε α : Type} {file : SourceFile} {f : Function} {t : Token}

/-! ### Searches -/

/-- Whether a check holds of an element; those behind it are not looked at. -/
def anyOf (p : α → Checked ε Bool) : List α → Checked ε Bool
  | [] => return false
  | a :: as => do if ← p a then return true else anyOf p as

/-- The position of the last element of which a check holds. -/
def lastPosition? (p : α → Bool) : List α → Option Nat
  | [] => none
  | a :: as =>
    match lastPosition? p as with
    | some i => some (i + 1)
    | none => if p a then some 0 else none

theorem anyOf_eq_ok {p : α → Checked ε Bool} {q : α → Bool} {as : List α}
    (h : ∀ a ∈ as, p a = .ok (q a)) : anyOf p as = .ok (as.any q) := by
  induction as with
  | nil => rfl
  | cons a as ih =>
    have hrest := ih fun b hb => h b (List.mem_cons_of_mem a hb)
    rw [anyOf, h a List.mem_cons_self, ok_bind, hrest, List.any_cons]
    cases q a <;> rfl

theorem lastPosition?_eq_none {p : α → Bool} {as : List α} (h : lastPosition? p as = none) :
    ∀ a ∈ as, ¬ p a := by
  induction as with
  | nil => simp
  | cons a as ih =>
    rw [lastPosition?] at h
    cases hrest : lastPosition? p as with
    | some i => simp [hrest] at h
    | none =>
      have ha : ¬ p a := by simpa [hrest] using h
      exact List.forall_mem_cons.mpr ⟨ha, ih hrest⟩

theorem lastPosition?_eq_some {p : α → Bool} {as : List α} {i : Nat}
    (h : lastPosition? p as = some i) :
    ∃ before a after, as = before ++ a :: after ∧ before.length = i ∧ p a ∧ ∀ b ∈ after, ¬ p b := by
  induction as generalizing i with
  | nil => contradiction
  | cons a as ih =>
    rw [lastPosition?] at h
    cases hrest : lastPosition? p as with
    | some j =>
      obtain ⟨before, b, after, rfl, hlength, hb, hafter⟩ := ih hrest
      have hi : j + 1 = i := by simpa [hrest] using h
      exact ⟨a :: before, b, after, rfl, by simp [hlength, hi], hb, hafter⟩
    | none =>
      have ha : p a ∧ 0 = i := by simpa [hrest] using h
      exact ⟨[], a, as, rfl, ha.2, ha.1, lastPosition?_eq_none hrest⟩

/-! ### Rules -/

def isMember (file : SourceFile) (i : Nat) : Checked ε Bool := do
  return (← prevSignificant file i).any fun t =>
    t.is "->" || t.is "?->" || t.is "::" || t.kind == .nsSeparator

/-- A literal with a capital letter. -/
def isOffendingLiteral (file : SourceFile) (t : Token) : Checked ε Bool := do
  let lower := Text.fold t.text
  if t.kind == .name && ["true", "false", "null"].contains lower && t.text != lower then
    return !(← isMember file t.index)
  else return false

def literalFindings (file : SourceFile) : Checked ε (List Finding) := do
  let offending ← select (isOffendingLiteral file) file.tokens.toList
  return offending.map fun t => ⟨t.index, "lc01"⟩

/-- Tokens of a static method's body that use the object. -/
def inMethod (file : SourceFile) (method : Function) : Checked ε (List Token) := do
  if method.isMethod && method.attributes.static then
    match method.bodyStarts with
    | none => return []
    | some start =>
      let body ← slice file.tokens.toList start (method.bodyEnds + 1)
      return body.filter (Rule.StaticThis.isOffending file method)
  else return []

def objectFindings (file : SourceFile) : Checked ε (List Finding) := do
  let offending ← file.functions.toList.mapM (inMethod file)
  return offending.flatten.map fun t => ⟨t.index, "st01"⟩

/-- Assignments in the condition after a keyword. -/
def inCondition (file : SourceFile) (t : Token) : Checked ε (List Token) := do
  if Rule.ConditionAssignment.opensCondition t then
    match (← nextSignificant file t.index).filter (·.is "(") with
    | none => return []
    | some opening =>
      match file.pairedBracket opening.index with
      | none => return []
      | some closing =>
        let condition ← slice file.tokens.toList (opening.index + 1) closing
        return Rule.ConditionAssignment.assignments 0 condition
  else return []

def conditionFindings (file : SourceFile) : Checked ε (List Finding) := do
  let offending ← file.tokens.toList.mapM (inCondition file)
  return offending.flatten.map fun t => ⟨t.index, "ac01"⟩

def closeTagFindings (file : SourceFile) : Checked ε (List Finding) := do
  let ts := file.tokens.toList
  match lastPosition? (·.kind == .closeTag) ts with
  | none => return []
  | some i =>
    let after ← sliceFrom ts (i + 1)
    if after.all Rule.ClosingTag.isBlankText && !ts.any Rule.ClosingTag.isMarkup then
      return [⟨i, "ct01"⟩]
    else return []

def variableFindings (file : SourceFile) : Checked ε (List Finding) := do
  let unused ← file.functions.toList.mapM (unusedIn file)
  return (unused.flatten.mergeSort fun a b => a ≤ b).map fun i => ⟨i, "uv01"⟩

/-- The bundled rules for files, in their order. -/
def rules : List (SourceFile → Checked ε (List Finding)) :=
  [literalFindings, objectFindings, conditionFindings, closeTagFindings, variableFindings]

theorem isOffendingLiteral_eq (file : SourceFile) (t : Token) :
    (isOffendingLiteral file t : Checked ε Bool) = .ok (Rule.LiteralCase.isOffending file t) := by
  have hmember : (isMember file t.index : Checked ε Bool) =
      .ok (Rule.LiteralCase.isMember file t.index) := by
    unfold isMember
    rw [prevSignificant_eq]
    rfl
  unfold isOffendingLiteral Rule.LiteralCase.isOffending
  dsimp only
  rw [hmember]
  cases t.kind == .name && ["true", "false", "null"].contains (Text.fold t.text) &&
    t.text != Text.fold t.text <;> rfl

theorem literalFindings_eq (file : SourceFile) : (literalFindings file : Checked ε (List Finding)) =
    .ok ((file.tokens.toList.filter (Rule.LiteralCase.isOffending file)).map
      fun t => ⟨t.index, "lc01"⟩) := by
  have hselect := select_eq_ok (ε := ε) fun t (_ : t ∈ file.tokens.toList) =>
    isOffendingLiteral_eq file t
  unfold literalFindings
  rw [hselect]
  rfl

theorem inMethod_eq (h : FunctionFits file.tokens.size f) :
    (inMethod file f : Checked ε (List Token)) = .ok (Rule.StaticThis.inMethod file f) := by
  unfold inMethod Rule.StaticThis.inMethod
  cases hstart : f.bodyStarts with
  | none => cases f.isMethod && f.attributes.static <;> rfl
  | some start =>
    have hbody := (h.body start hstart).2
    have hsize := h.size
    have hslice : (slice file.tokens.toList start (f.bodyEnds + 1) : Checked ε (List Token)) =
        .ok (file.tokens.extract start (f.bodyEnds + 1)).toList :=
      slice_toList (by omega) (by omega)
    dsimp only
    rw [hslice]
    cases f.isMethod && f.attributes.static <;> rfl

theorem objectFindings_eq (h : WellFormed file) :
    (objectFindings file : Checked ε (List Finding)) =
      .ok ((file.functions.toList.flatMap (Rule.StaticThis.inMethod file)).map
        fun t => ⟨t.index, "st01"⟩) := by
  have hmap := mapM_eq_ok (ε := ε) fun f (hf : f ∈ file.functions.toList) =>
    inMethod_eq (h.functions f (Array.mem_toList_iff.mp hf))
  unfold objectFindings
  rw [hmap, List.flatMap_def]
  rfl

theorem inCondition_eq (h : WellFormed file) (t : Token) :
    (inCondition file t : Checked ε (List Token)) =
      .ok (Rule.ConditionAssignment.inCondition file t) := by
  unfold inCondition Rule.ConditionAssignment.inCondition
  rw [nextSignificant_eq, ok_bind]
  by_cases hkeyword : Rule.ConditionAssignment.opensCondition t
  · rw [if_pos hkeyword, if_neg (by simpa using hkeyword)]
    cases hopening : (file.nextSignificant t.index).filter (·.is "(") with
    | none => rfl
    | some opening =>
      dsimp only
      cases hclosing : file.pairedBracket opening.index with
      | none => rfl
      | some closing =>
        obtain ⟨hnext, hparenthesis⟩ := Option.filter_eq_some_iff.mp hopening
        have ht := getElem?_of_nextSignificant h hnext
        obtain ⟨hlt, hsize⟩ := h.pairs _ _ _ ht hparenthesis hclosing
        have hslice :
            (slice file.tokens.toList (opening.index + 1) closing : Checked ε (List Token)) =
              .ok (file.tokens.extract (opening.index + 1) closing).toList :=
          slice_toList (by omega) (by omega)
        dsimp only
        rw [hslice]
        rfl
  · rw [if_neg hkeyword, if_pos (by simpa using hkeyword)]
    rfl

theorem conditionFindings_eq (h : WellFormed file) :
    (conditionFindings file : Checked ε (List Finding)) =
      .ok ((file.tokens.toList.flatMap (Rule.ConditionAssignment.inCondition file)).map
        fun t => ⟨t.index, "ac01"⟩) := by
  have hmap := mapM_eq_ok (ε := ε) fun t (_ : t ∈ file.tokens.toList) => inCondition_eq h t
  unfold conditionFindings
  rw [hmap, List.flatMap_def]
  rfl

theorem closeTagFindings_eq (h : WellFormed file) :
    (closeTagFindings file : Checked ε (List Finding)) =
      .ok ((Rule.ClosingTag.offending? file.tokens.toList).toList.map
        fun t => ⟨t.index, "ct01"⟩) := by
  have hindexed := h.indexed
  unfold closeTagFindings Rule.ClosingTag.offending?
  dsimp only
  generalize file.tokens.toList = ts at hindexed ⊢
  cases hlast : lastPosition? (·.kind == .closeTag) ts with
  | none =>
    have hnone := lastPosition?_eq_none hlast
    have hfind : ts.reverse.find? (·.kind == .closeTag) = none :=
      List.find?_eq_none.mpr fun t ht => hnone t (List.mem_reverse.mp ht)
    rw [hfind, ite_self]
    rfl
  | some i =>
    obtain ⟨before, t, after, rfl, hlength, ht, hafter⟩ := lastPosition?_eq_some hlast
    have hindex : t.index = i := hindexed.index_append.trans hlength
    have hslice : (sliceFrom (before ++ t :: after) (i + 1) : Checked ε (List Token)) =
        .ok after := by
      rw [sliceFrom_eq_ok (by simp [← hlength]), ← hlength]
      simp
    -- the search from the back stops at the same tag
    have hbehind : ∀ u ∈ after.reverse, u.kind != .closeTag := fun u hu => by
      simpa using hafter u (List.mem_reverse.mp hu)
    have htake : (before ++ t :: after).reverse.takeWhile (·.kind != .closeTag) =
        after.reverse := by
      rw [List.reverse_append, List.reverse_cons, List.append_assoc,
        List.takeWhile_append_of_pos hbehind, List.singleton_append,
        List.takeWhile_cons_of_neg (by simpa using ht), List.append_nil]
    have hfind : (before ++ t :: after).reverse.find? (·.kind == .closeTag) = some t := by
      have hnone : after.reverse.find? (·.kind == .closeTag) = none :=
        List.find?_eq_none.mpr fun u hu => hafter u (List.mem_reverse.mp hu)
      rw [List.reverse_append, List.reverse_cons, List.append_assoc, List.find?_append, hnone,
        List.singleton_append, Option.none_or]
      exact List.find?_cons_of_pos ht
    dsimp only
    rw [hslice, htake, hfind, List.all_reverse, ok_bind, ← hindex]
    split <;> rfl

theorem variableFindings_eq (h : WellFormed file) :
    (variableFindings file : Checked ε (List Finding)) =
      .ok (((file.functions.toList.flatMap (Rule.UnusedVariable.unusedIn file)).mergeSort
        fun a b => a ≤ b).map fun i => ⟨i, "uv01"⟩) := by
  have hmap := mapM_eq_ok (ε := ε) fun f (_ : f ∈ file.functions.toList) => unusedIn_eq h f
  unfold variableFindings
  rw [hmap, List.flatMap_def]
  rfl

/-! ### Summaries -/

/-- Whether a call of the parent's constructor starts at a token. -/
def isParentConstructorCall (file : SourceFile) (i : Nat) : Checked ε Bool := do
  if file.tokens[i]?.any (·.isWord "parent") then
    match (← nextSignificant file i).filter (·.is "::") with
    | none => return false
    | some colons =>
      return (← nextSignificant file colons.index).any fun name =>
        Text.sameFold name.text "__construct"
  else return false

def callsParentConstructor (file : SourceFile) (f : Function) : Checked ε Bool :=
  match f.bodyStarts with
  | none => return false
  | some start =>
    anyOf (isParentConstructorCall file) (List.range' start (f.bodyEnds - start))

def methodSummary? (file : SourceFile) (f : Function) :
    Checked ε (Option MethodDeclaration) :=
  match f.name with
  | none => return none
  | some name =>
    return some {
      name
      line := file.lineAt f.index
      attributes := f.attributes
      parameterCount := f.parameters.length
      requiredParameterCount := f.requiredParameterCount
      callsParentConstructor := ← callsParentConstructor file f }

def classSummary (file : SourceFile) (c : Class) : Checked ε ClassDeclaration := do
  let methods ← (file.methodsOf c).mapM (methodSummary? file)
  return { file.classDeclaration c with methods := methods.filterMap id }

/-- What a file declares. -/
def declarations (file : SourceFile) : Checked ε FileDeclarations := do
  let classes ← (file.classes.toList.filter (·.nameIndex.isSome)).mapM (classSummary file)
  return { file.declarations with classes }

theorem isParentConstructorCall_eq (file : SourceFile) (i : Nat) :
    (isParentConstructorCall file i : Checked ε Bool) = .ok (file.isParentConstructorCall i) := by
  unfold isParentConstructorCall SourceFile.isParentConstructorCall
  cases file.tokens[i]?.any (·.isWord "parent") with
  | false => rfl
  | true =>
    rw [nextSignificant_eq, if_pos rfl, ok_bind]
    cases file.nextSignificant i with
    | none => rfl
    | some colons =>
      rw [Option.filter_some]
      cases hcolons : colons.is "::" with
      | false => simp [hcolons]
      | true => simp [hcolons, nextSignificant_eq]

theorem callsParentConstructor_eq (file : SourceFile) (f : Function) :
    (callsParentConstructor file f : Checked ε Bool) = .ok (file.callsParentConstructor f) := by
  unfold callsParentConstructor SourceFile.callsParentConstructor
  cases f.bodyStarts with
  | none => rfl
  | some start => exact anyOf_eq_ok fun i _ => isParentConstructorCall_eq file i

theorem methodSummary?_eq (file : SourceFile) (f : Function) :
    (methodSummary? file f : Checked ε (Option MethodDeclaration)) =
      .ok (file.methodDeclaration? f) := by
  unfold methodSummary? SourceFile.methodDeclaration?
  rw [callsParentConstructor_eq]
  cases f.name <;> rfl

theorem classSummary_eq (file : SourceFile) (c : Class) :
    (classSummary file c : Checked ε ClassDeclaration) = .ok (file.classDeclaration c) := by
  have hmap := mapM_eq_ok (ε := ε) fun f (_ : f ∈ file.methodsOf c) => methodSummary?_eq file f
  unfold classSummary
  rw [hmap, ok_bind, List.filterMap_map]
  rfl

theorem declarations_eq (file : SourceFile) :
    (declarations file : Checked ε FileDeclarations) = .ok file.declarations := by
  have hmap := mapM_eq_ok (ε := ε) fun c
    (_ : c ∈ file.classes.toList.filter (·.nameIndex.isSome)) => classSummary_eq file c
  unfold declarations
  rw [hmap]
  rfl

/-! ### Contents -/

/--
No content of fewer than `2 ^ 32` lines brings about a trap. It is read or refused as it should be,
and on a file that has been read each bundled rule and the summary come to their answers.
-/
theorem runs_of_lines (name : String) {content : ByteArray}
    (hlines : 1 + newlines content < 2 ^ 32) (ignoredClasses : List String) :
    Runs (parse name content) ∧ parse name content = ofExcept (SourceFile.parse name content) ∧
      ∀ file, parse name content = .ok file →
        List.Forall₂ (fun rule lint => Runs (rule file) ∧
            rule file = ofExcept (lint.findings file))
          rules ((bundledPlugins ignoredClasses).filterMap (·.lint)) ∧
        Runs (declarations file : Checked Empty FileDeclarations) ∧
        (declarations file : Checked Empty FileDeclarations) = .ok file.declarations := by
  have hparse := parse_eq name hlines
  have hruns : Runs (parse name content) := by
    rw [hparse]
    exact runs_ofExcept _
  refine ⟨hruns, hparse, fun file hfile => ?_⟩
  rw [hparse, ofExcept_eq_ok] at hfile
  have hformed := wellFormed_of_parse hfile
  have hrule {rule : SourceFile → Checked PluginFailure (List Finding)} {lint : FileLint}
      (heq : rule file = ofExcept (lint.findings file)) :
      Runs (rule file) ∧ rule file = ofExcept (lint.findings file) := by
    refine ⟨?_, heq⟩
    rw [heq]
    exact runs_ofExcept _
  have hdeclarations : (declarations file : Checked Empty FileDeclarations) =
      ofExcept (.ok file.declarations) := declarations_eq file
  refine ⟨?_, ?_, hdeclarations⟩
  · exact .cons (hrule (literalFindings_eq file)) <| .cons (hrule (objectFindings_eq hformed)) <|
      .cons (hrule (conditionFindings_eq hformed)) <| .cons (hrule (closeTagFindings_eq hformed)) <|
      .cons (hrule (variableFindings_eq hformed)) .nil
  · rw [hdeclarations]
    exact runs_ofExcept _

/-- Brackets that do not pair and a text that does not end. -/
theorem runs_of_lines_unclosed :
    let content := "<?php\nfunction f($a) \x7b if ($b = \"$\x7b".toUTF8
    1 + newlines content < 2 ^ 32 ∧ Runs (parse "a.php" content) ∧
      parse "a.php" content = ofExcept (SourceFile.parse "a.php" content) ∧
      ∀ file, parse "a.php" content = .ok file →
        List.Forall₂ (fun rule lint => Runs (rule file) ∧
            rule file = ofExcept (lint.findings file))
          rules ((bundledPlugins []).filterMap (·.lint)) ∧
        Runs (declarations file : Checked Empty FileDeclarations) ∧
        (declarations file : Checked Empty FileDeclarations) = .ok file.declarations := by
  intro content
  have hlines : 1 + newlines content < 2 ^ 32 := by decide +kernel
  exact ⟨hlines, runs_of_lines "a.php" hlines []⟩

end PhpLint.Checked
