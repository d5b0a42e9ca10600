import PhpLint.Proofs.Model.InForce
import PhpLint.Proofs.Model.Written

/-!
Names of declarations. The namespace that a declaration is named in during the pass is the one that
is found for it afterwards, and the names in its header are resolved in that one.
-/
namespace PhpLint

namespace SourceFile

/-- The tokens of a file that carry syntax. -/
def lexemes (file : SourceFile) : List Lexeme :=
  Lexeme.ofTokens false file.tokens.toList

/-- Of the bracket pairs around a token the innermost opens at `o`. -/
def InnermostAround (file : SourceFile) (o i : Nat) : Prop :=
  ∃ e, file.pairedBracket o = some e ∧ o < i ∧ i < e ∧
    ∀ o' e', file.pairedBracket o' = some e' → o' < i → i < e' → o' ≤ o

/-- The innermost bracket around token `i` opens the body of a class. -/
def DirectlyIn (file : SourceFile) (c : Class) (i : Nat) : Prop :=
  ∃ e, file.pairedBracket c.bodyStarts = some e ∧ c.bodyStarts < i ∧ i < e ∧
    ∀ o e', file.pairedBracket o = some e' → o < i → i < e' → o ≤ c.bodyStarts

/-- The header of a class is written behind its keyword, with these names in its clauses. -/
def WritesHeader (file : SourceFile) (c : Class) (parents interfaces : List String) : Prop :=
  ∃ before x after, file.lexemes = before ++ x :: after ∧ x.index = c.index ∧
    Lexeme.Header (fun i j => file.pairedBracket i = some j) after c.nameIndex parents interfaces
      c.bodyStarts

/-- A trait is named in a `use` right inside the body of a class. -/
def WritesTrait (file : SourceFile) (c : Class) (name : String) : Prop :=
  ∃ before x after names rest, file.lexemes = before ++ x :: after ∧ x.isKeyword "use" ∧
    file.DirectlyIn c x.index ∧ Lexeme.WrittenList after names rest ∧ name ∈ names

end SourceFile

namespace Outline

variable {ts : List Token} {found : List (Nat × Nat)} {before after s : List Lexeme} {x : Lexeme}

theorem Accepted.getElem?_index (h : Accepted ts found)
    (hsplit : Lexeme.ofTokens false ts = before.reverse ++ s) {y : Lexeme} (hy : y ∈ s) :
    ts[y.index]? = some y.toToken := by
  obtain ⟨k, hk⟩ := List.mem_iff_getElem?.mp (Accepted.mem hsplit hy).1
  rw [Lexeme.index_of_getElem? h.indexed hk, hk]

namespace Pass

variable {p : Pass} {size i : Nat}

/-! ### Names of declarations -/

/-- A class with a name is named in the namespace in force at its keyword. -/
def ClassNamed (ts : List Token) (l : List (Nat × String)) (c : Class) : Prop :=
  ∀ n, c.nameIndex = some n → ∃ t, ts[n]? = some t ∧
    c.name = Namespace.qualifyLocal (inForce l c.index) t.text

/-- A function with a name that is no method is named in the namespace in force at its keyword. -/
def FunctionNamed (ts : List Token) (l : List (Nat × String)) (f : Function) : Prop :=
  ∀ name, f.name = some name → f.classId = none → ∃ n t, f.nameIndex = some n ∧
    ts[n]? = some t ∧ name = Namespace.qualifyLocal (inForce l f.index) t.text

theorem name_of_className? {anonymous : Bool} {n : Nat} {name : String}
    (h : p.className? anonymous s = some (some n, name, after)) :
    ∃ y ∈ s, y.isIdentifier ∧ y.index = n ∧
      name = Namespace.qualifyLocal p.namespaceName y.text := by
  unfold className? at h
  split at h
  · contradiction
  · rename_i y r
    split at h
    · split at h
      · obtain ⟨_, _, heq⟩ := Option.map_eq_some_iff.mp h
        cases heq
      · cases h
    · split at h
      · rename_i hidentifier
        dsimp only at h
        split at h <;> cases h <;> exact ⟨y, List.mem_cons_self, hidentifier, rfl, rfl⟩
      · contradiction

theorem Reaches.classes_named (h : Reaches ts before p) (ha : Accepted ts found) :
    ∀ c ∈ p.classes, c.index < reach before ∧ ClassNamed ts (marks p.namespaces.toList) c := by
  induction h with
  | start => intro c hc; simp [Pass.start] at hc
  | @step p before after x h hsplit ih =>
    have hstep := step_cases p ts.length before x after
    have horder := (h.inOrder ha).mono ((ha.between hsplit).between x List.mem_cons_self).1
    have hx := ((ha.between hsplit).between x List.mem_cons_self).1
    refine hstep.forall_classes (fun c hc => ?_) (fun c _ _ _ _ _ hc => hc) ?_
    · obtain ⟨hlt, hnamed⟩ := ih c hc
      have hlt' : c.index < x.index := by omega
      refine ⟨Nat.lt_succ_of_lt hlt', ?_⟩
      unfold ClassNamed
      rw [hstep.spaces.inForce_eq horder hlt']
      exact hnamed
    · intro kind c hkind hclass hnamespaces
      obtain ⟨s₁, _, _, _, hname, _, _, _, hindex, _⟩ := class?_eq_some hclass
      refine ⟨hindex ▸ Nat.lt_succ_self _, fun n hn => ?_⟩
      rw [hn] at hname
      obtain ⟨y, hy, _, rfl, heq⟩ := name_of_className? hname
      refine ⟨y.toToken, ha.getElem?_index hsplit (List.mem_cons_of_mem x hy), ?_⟩
      rw [heq, namespaceName_eq horder, hnamespaces, hindex]

theorem Reaches.functions_named (h : Reaches ts before p) (ha : Accepted ts found) :
    ∀ f ∈ p.functions, f.index < reach before ∧
      FunctionNamed ts (marks p.namespaces.toList) f := by
  induction h with
  | start => intro f hf; simp [Pass.start] at hf
  | @step p before after x h hsplit ih =>
    have hstep := step_cases p ts.length before x after
    have hx := ((ha.between hsplit).between x List.mem_cons_self).1
    have horder := (h.inOrder ha).mono hx
    refine hstep.forall_functions (fun f hf => ?_) (fun f _ hf => hf) ?_
    · obtain ⟨hlt, hnamed⟩ := ih f hf
      have hlt' : f.index < x.index := by omega
      refine ⟨Nat.lt_succ_of_lt hlt', ?_⟩
      unfold FunctionNamed
      rw [hstep.spaces.inForce_eq horder hlt']
      exact hnamed
    · intro isArrow header hkind hread hnamespaces
      refine ⟨Nat.lt_succ_self _, fun name hname hclass => ?_⟩
      cases hheader : header.name with
      | none =>
        unfold functionRecord at hname
        rw [hheader] at hname
        contradiction
      | some y =>
        have hmethod : p.classBody = none := by
          unfold functionRecord at hclass
          simpa [hheader] using hclass
        unfold functionRecord at hname ⊢
        simp only [hheader, hmethod, Option.map_some, Option.isSome_some, if_true,
          Option.isSome_none, Bool.false_eq_true, if_false, Option.some.injEq] at hname ⊢
        refine ⟨y.index, y.toToken, rfl, ?_, ?_⟩
        · exact ha.getElem?_index hsplit
            (List.mem_cons_of_mem x (Signature.mem_of_name hread hheader).1)
        · rw [← hname, namespaceName_eq horder, hnamespaces]

/-! ### Names in headers -/

/-- A class whose header is written in a file. -/
def HeaderWritten (ts : List Token) (found : List (Nat × Nat)) (c : Class) : Prop :=
  ∃ before x after, Lexeme.ofTokens false ts = before ++ x :: after ∧ x.isIdentifier ∧
    x.index = c.index ∧
      Lexeme.Header (Bracket.Partners found) after c.nameIndex c.parents c.interfaces c.bodyStarts

/-- A trait that is named in a `use` while the bracket at `k` is the innermost one. -/
def TraitWritten (ts : List Token) (k : Nat) (name : String) : Prop :=
  ∃ (before : List Lexeme) (x : Lexeme) (after : List Lexeme) (names : List String)
      (rest : List Lexeme) (o : Token) (outside : List Token),
    Lexeme.ofTokens false ts = before.reverse ++ x :: after ∧ x.isKeyword "use" ∧
      Lexeme.opened before = o :: outside ∧ o.index = k ∧ Lexeme.WrittenList after names rest ∧
      name ∈ names

theorem Reaches.headers_written (h : Reaches ts before p) (ha : Accepted ts found) :
    ∀ c ∈ p.classes, HeaderWritten ts found c := by
  induction h with
  | start => intro c hc; simp [Pass.start] at hc
  | @step p before after x h hsplit ih =>
    refine (step_cases p ts.length before x after).forall_classes ih
      (fun c _ _ _ _ _ hc => hc) fun kind c hkind hclass _ => ?_
    obtain ⟨_, _, _, _, _, _, _, _, hindex, _⟩ := class?_eq_some hclass
    exact ⟨before.reverse, x, after, hsplit, hkind, hindex.symm, header_of_class? ha hsplit hclass⟩

theorem scopes_of_classBody {id : Nat} (h : p.classBody = some id) :
    ∃ scopes, p.scopes = .classBody id :: scopes := by
  unfold classBody at h
  split at h
  · rename_i scopes hscopes
    cases h
    exact ⟨scopes, hscopes⟩
  · contradiction

theorem Reaches.traits_written (h : Reaches ts before p) (ha : Accepted ts found) :
    ∀ c ∈ p.classes, ∀ name ∈ c.traits, TraitWritten ts c.bodyStarts name := by
  induction h with
  | start => intro c hc; simp [Pass.start] at hc
  | @step p before after x h hsplit ih =>
    cases (step_cases p ts.length before x after).records with
    | same hclasses | functionEnds _ _ hclasses => rwa [hclasses]
    | classEnds _ _ hclasses =>
      rw [hclasses]
      exact forall_modify ih _ fun c _ hc => hc
    | members hf hclasses =>
      rw [hclasses]
      refine forall_modify ih _ fun c _ hc => ?_
      obtain ⟨properties, constants, heq⟩ := hf c
      rwa [heq]
    | @traits id hkey hid hclasses =>
      rw [hclasses]
      refine forall_modify ih id fun c hc hwritten name hname => ?_
      rcases List.mem_append.mp hname with hname | hname
      · exact hwritten name hname
      obtain ⟨scopes, hscopes⟩ := scopes_of_classBody hid
      have htracks := (h.tracks ha hsplit).scopes
      rw [hscopes] at htracks
      obtain ⟨o, outside, hbegins, _, hopened⟩ := List.forall₂_cons_right_iff.mp htracks
      obtain ⟨c', hc', hstart⟩ := hbegins
      have hne (y : Lexeme) (hy : y ∈ after) : y.text ≠ "" :=
        ha.nonempty _ (Accepted.mem hsplit (List.mem_cons_of_mem x hy)).1
      have hsame : c' = c := Option.some.inj (hc'.symm.trans hc)
      exact ⟨before, x, after, _, _, o, outside, hsplit, hkey, hopened, hsame ▸ hstart.symm,
        Lexeme.writtenList_readNames hne, hname⟩
    | «class» _ hclass hclasses =>
      rw [hclasses]
      refine forall_push ih ?_
      obtain ⟨_, _, _, _, _, _, _, _, _, _, _, htraits, _⟩ := class?_eq_some hclass
      rw [htraits]
      intro name hname
      contradiction
    | function _ _ _ hclasses =>
      rcases hclasses with hclasses | ⟨_, _, _, hclasses⟩
      · rwa [hclasses]
      · rw [hclasses]
        exact forall_modify ih _ fun c _ hc => hc

end Pass

/-! ### Behind the pass -/

/-- The last record ends with the file, unless it has an end in the file already. -/
theorem Pass.endLast_cases (last : Nat) (ns : Namespace) :
    endLast last ns = { ns with bodyEnds := some last } ∨
      endLast last ns = ns ∧ ∃ e, ns.bodyEnds = some e ∧ ns.index ≤ e ∧ e ≤ last := by
  unfold endLast
  split
  · rename_i e he
    split
    · exact Or.inl rfl
    · rename_i hinside
      simp only [Bool.or_eq_true, decide_eq_true_eq, not_or] at hinside
      exact Or.inr ⟨rfl, e, he, by omega, by omega⟩
  · exact Or.inl rfl

/-- The records that do not start behind the file are left, in order. -/
theorem Pass.finishedNamespaces_eq (ha : Accepted ts found) (hts : ts ≠ []) :
    (Pass.final ts).finishedNamespaces ts.length =
      ((Pass.final ts).namespaces.modify ((Pass.final ts).namespaces.size - 1)
        (endLast (ts.length - 1))).toList.filter (·.index ≤ ts.length - 1) := by
  have hends := (Pass.reaches_final ts).ends ha
  have hpos : 0 < ts.length := List.length_pos_iff.mpr hts
  unfold finishedNamespaces
  rw [if_neg (by simp only [beq_iff_eq]; omega)]
  apply List.filter_congr
  intro ns hns
  obtain ⟨k, hk⟩ := Array.mem_iff_getElem?.mp (Array.mem_toList_iff.mp hns)
  rw [Array.getElem?_modify] at hk
  by_cases hle : ns.index ≤ ts.length - 1
  · have hall : ns.bodyEnds.all (ns.index ≤ ·) := by
      split at hk
      · obtain ⟨old, hold, rfl⟩ := Option.map_eq_some_iff.mp hk
        rcases endLast_cases (ts.length - 1) old with heq | ⟨heq, e, he, hfrom, _⟩
        · rw [heq] at hle ⊢
          simpa using hle
        · rw [heq, he]
          simpa using hfrom
      · cases he : ns.bodyEnds with
        | none => rfl
        | some e => simpa using hends ns (Array.mem_of_getElem? hk) e he
    simp [hle, hall]
  · simp [hle]

theorem Pass.marks_finishedNamespaces (ha : Accepted ts found) (hts : ts ≠ []) :
    marks ((Pass.final ts).finishedNamespaces ts.length) =
      (marks (Pass.final ts).namespaces.toList).filter (·.1 ≤ ts.length - 1) := by
  have hendLast (ns : Namespace) : (endLast (ts.length - 1) ns).index = ns.index ∧
      (endLast (ts.length - 1) ns).name = ns.name := by
    rcases endLast_cases (ts.length - 1) ns with heq | ⟨heq, _⟩
    · rw [heq]
      exact ⟨rfl, rfl⟩
    · rw [heq]
      exact ⟨rfl, rfl⟩
  rw [finishedNamespaces_eq ha hts,
    ← marks_modify (Pass.final ts).namespaces ((Pass.final ts).namespaces.size - 1)
      (fun ns => (hendLast ns).1) fun ns => (hendLast ns).2]
  unfold marks
  rw [List.filter_map]
  rfl

/-- The records of a file are in order. -/
theorem Pass.inOrder_finishedNamespaces (ha : Accepted ts found) (hts : ts ≠ []) :
    InOrder (marks ((Pass.final ts).finishedNamespaces ts.length)) (ts.length - 1) := by
  have horder := (Pass.reaches_final ts).inOrder ha
  rw [marks_finishedNamespaces ha hts]
  refine ⟨?_, horder.rising.sublist List.filter_sublist, fun m hm => ?_⟩
  · cases hmarks : marks (Pass.final ts).namespaces.toList with
    | nil => exact absurd hmarks horder.ne_nil
    | cons m l =>
      have hm : m.1 = 0 := by
        have hfirst := horder.first
        rw [hmarks] at hfirst
        exact Option.some.inj hfirst
      rw [List.filter_cons_of_pos (by simp [hm])]
      exact congrArg some hm
  · simpa using (List.mem_filter.mp hm).2

theorem namespaces_ofOutline (name : String) (ha : Accepted ts found) (hts : ts ≠ []) :
    (SourceFile.ofOutline name ts (ofFinal ts found)).namespaces =
      (Pass.final ts).finishedNamespaces ts.length := by
  have horder := Pass.inOrder_finishedNamespaces ha hts
  have hne : (Pass.final ts).finishedNamespaces ts.length ≠ [] :=
    fun hnil => horder.ne_nil (by rw [hnil]; rfl)
  have hrising := horder.rising
  rw [marks, List.pairwise_map] at hrising
  unfold SourceFile.ofOutline ofFinal
  dsimp only
  rw [if_neg (by simpa using hne)]
  apply List.mergeSort_of_pairwise
  exact hrising.imp fun hlt => by simpa using Nat.le_of_lt hlt

theorem inOrder_ofOutline (name : String) (ha : Accepted ts found) :
    InOrder (marks (SourceFile.ofOutline name ts (ofFinal ts found)).namespaces)
      (ts.length - 1) := by
  by_cases hts : ts = []
  · subst hts
    have heq : (SourceFile.ofOutline name [] (ofFinal [] found)).namespaces =
        [SourceFile.wholeFile 0] := List.mergeSort_singleton _
    rw [heq]
    refine ⟨rfl, List.pairwise_singleton _ _, fun m hm => ?_⟩
    rw [List.mem_singleton.mp hm]
    exact Nat.le_refl _
  · rw [namespaces_ofOutline name ha hts]
    exact Pass.inOrder_finishedNamespaces ha hts

/-- The record that is found for a token is the one that was in force there during the pass. -/
theorem markAt_ofOutline (name : String) (ha : Accepted ts found) {i : Nat} (hi : i < ts.length) :
    markAt (marks (SourceFile.ofOutline name ts (ofFinal ts found)).namespaces) i =
      markAt (marks (Pass.final ts).namespaces.toList) i := by
  have hts : ts ≠ [] := List.length_pos_iff.mp (Nat.zero_lt_of_lt hi)
  rw [namespaces_ofOutline name ha hts, Pass.marks_finishedNamespaces ha hts]
  refine markAt_filter fun m _ hm => ?_
  simp only [decide_eq_true_eq]
  omega

theorem name_namespaceAt_ofOutline (name : String) (ha : Accepted ts found) {i : Nat}
    (hi : i < ts.length) :
    ((SourceFile.ofOutline name ts (ofFinal ts found)).namespaceAt i).name =
      inForce (marks (Pass.final ts).namespaces.toList) i := by
  unfold SourceFile.namespaceAt
  rw [name_namespaceAt (inOrder_ofOutline name ha), inForce_eq, inForce_eq,
    markAt_ofOutline name ha hi]

/-- Declarations of a file are those of the pass, with names resolved in the records of the file. -/
theorem exists_class_of_mem (name : String) (ha : Accepted ts found) {c : Class}
    (hc : c ∈ (SourceFile.ofOutline name ts (ofFinal ts found)).classes) :
    ∃ c' ∈ (Pass.final ts).classes, c = resolveClass
      (SourceFile.ofOutline name ts (ofFinal ts found)).namespaces c' ∧ c'.index < ts.length := by
  obtain ⟨c', hc', rfl⟩ := Array.mem_map.mp hc
  have hfits := ((Pass.reaches_final ts).sound ha).classes c' hc'
  have hlt : c'.index < ts.length :=
    Nat.lt_of_lt_of_le hfits.index (Nat.le_trans hfits.body (Nat.le_of_lt hfits.size))
  have hts : ts ≠ [] := List.length_pos_iff.mp (Nat.zero_lt_of_lt hlt)
  exact ⟨c', hc', by rw [namespaces_ofOutline name ha hts], hlt⟩

theorem exists_function_of_mem (name : String) (ha : Accepted ts found) {f : Function}
    (hf : f ∈ (SourceFile.ofOutline name ts (ofFinal ts found)).functions) :
    ∃ f' ∈ (Pass.final ts).functions, f = resolveFunction
      (SourceFile.ofOutline name ts (ofFinal ts found)).namespaces f' ∧ f'.index < ts.length := by
  obtain ⟨f', hf', rfl⟩ := Array.mem_map.mp hf
  have hfits := ((Pass.reaches_final ts).sound ha).functions f' hf'
  have hlt : f'.index < ts.length := Nat.lt_trans hfits.index hfits.size
  have hts : ts ≠ [] := List.length_pos_iff.mp (Nat.zero_lt_of_lt hlt)
  exact ⟨f', hf', by rw [namespaces_ofOutline name ha hts], hlt⟩

/-- A lexeme that is no closing bracket ends no pair. -/
theorem Accepted.ne_of_mem (h : Accepted ts found)
    (hsplit : Lexeme.ofTokens false ts = before.reverse ++ x :: after)
    (hx : x.isCloseBracket = false) {k e : Nat} (hpair : (k, e) ∈ found) : e ≠ x.index := by
  rintro rfl
  obtain ⟨before', y, after', hsplit', hclose, hindex⟩ := h.exists_split_closing hpair
  have hy := h.getElem?_index hsplit' List.mem_cons_self
  rw [hindex, h.getElem?_index hsplit List.mem_cons_self] at hy
  rw [← Option.some.inj hy, hx] at hclose
  contradiction

/-- What the pass finds innermost lies innermost in the file. -/
theorem innermostAround_of_opened (name : String) (ha : Accepted ts found)
    (hsplit : Lexeme.ofTokens false ts = before.reverse ++ x :: after)
    (hx : x.isCloseBracket = false) {o : Token} {outside : List Token}
    (hopened : Lexeme.opened before = o :: outside) :
    (SourceFile.ofOutline name ts (ofFinal ts found)).InnermostAround o.index x.index := by
  have hmem {k : Nat} := ha.mem_opened_iff (k := k) hsplit
  rw [hopened] at hmem
  obtain ⟨e, hpair, hlt, hle⟩ := hmem.mp (List.mem_map_of_mem List.mem_cons_self)
  refine ⟨e, (ha.pairedBracket_iff name).mpr (Or.inl hpair), hlt, ?_, ?_⟩
  · have := ha.ne_of_mem hsplit hx hpair
    omega
  · intro k e' hk hfrom hto
    have hk : (k, e') ∈ found := by
      rcases (ha.pairedBracket_iff name).mp hk with hk | hk
      · exact hk
      · have := ha.lt_of_mem hk
        omega
    obtain ⟨t, ht, rfl⟩ := List.mem_map.mp (hmem.mpr ⟨e', hk, hfrom, Nat.le_of_lt hto⟩)
    have hpairwise := ha.opened_pairwise hsplit
    rw [hopened] at hpairwise
    rcases List.mem_cons.mp ht with rfl | ht
    · exact Nat.le_refl _
    · have := (List.pairwise_cons.mp hpairwise).1 t ht
      omega

theorem directlyIn_of_opened (name : String) (ha : Accepted ts found)
    (hsplit : Lexeme.ofTokens false ts = before.reverse ++ x :: after)
    (hx : x.isCloseBracket = false) {o : Token} {outside : List Token}
    (hopened : Lexeme.opened before = o :: outside) {c : Class} (hc : o.index = c.bodyStarts) :
    (SourceFile.ofOutline name ts (ofFinal ts found)).DirectlyIn c x.index := by
  have hinnermost := innermostAround_of_opened name ha hsplit hx hopened
  rw [hc] at hinnermost
  exact hinnermost

end Outline

open Outline

/-- Names of declarations agree with the records that are found for them. -/
structure SourceFile.NamesAgree (file : SourceFile) : Prop where
  /-- Records start one after the other, the first with the file. -/
  rising : file.namespaces.Pairwise (·.index < ·.index)
  first : file.namespaces.head?.map (·.index) = some 0
  /-- A class with a name is named in the namespace found for its keyword. -/
  classes : ∀ c ∈ file.classes, ∀ n, c.nameIndex = some n → ∃ t, file.tokens[n]? = some t ∧
    c.name = Namespace.qualifyLocal (file.namespaceAt c.index).name t.text
  /-- So is a function with a name that is no method. -/
  functions : ∀ f ∈ file.functions, ∀ name, f.name = some name → f.isMethod = false →
    ∃ n t, f.nameIndex = some n ∧ file.tokens[n]? = some t ∧
      name = Namespace.qualifyLocal (file.namespaceAt f.index).name t.text
  /-- What a class extends and implements is written in its header. -/
  headers : ∀ c ∈ file.classes, ∃ parents interfaces, file.WritesHeader c parents interfaces ∧
    c.parents = parents.map (file.namespaceAt c.index).qualify ∧
    c.interfaces = interfaces.map (file.namespaceAt c.index).qualify
  /-- What a class uses is written in its body. -/
  traits : ∀ c ∈ file.classes, ∀ full ∈ c.traits, ∃ written, file.WritesTrait c written ∧
    full = (file.namespaceAt c.index).qualify written

/-- Names agree in every file that is accepted. -/
theorem SourceFile.names_agree {name : String} {content : ByteArray} {file : SourceFile}
    (h : SourceFile.parse name content = .ok file) : file.NamesAgree := by
  obtain ⟨ts, found, _, ha, rfl⟩ := parse_eq_ok h
  have hreaches := Pass.reaches_final ts
  have horder := inOrder_ofOutline name ha
  have hpaired : (fun i j => (ofOutline name ts (ofFinal ts found)).pairedBracket i = some j) =
      Bracket.Partners found := by
    funext i j
    exact propext (ha.pairedBracket_iff name)
  refine ⟨?_, ?_, ?_, ?_, ?_, ?_⟩
  · have hrising := horder.rising
    rwa [marks, List.pairwise_map] at hrising
  · rw [← horder.first, marks, List.head?_map, Option.map_map]
    rfl
  · intro c hc n hn
    obtain ⟨c', hc', rfl, hlt⟩ := exists_class_of_mem name ha hc
    obtain ⟨t, ht, heq⟩ := (hreaches.classes_named ha c' hc').2 n hn
    refine ⟨t, (List.getElem?_toArray ..).trans ht, heq.trans ?_⟩
    exact congrArg (Namespace.qualifyLocal · t.text) (name_namespaceAt_ofOutline name ha hlt).symm
  · intro f hf fullName hname hmethod
    obtain ⟨f', hf', rfl, hlt⟩ := exists_function_of_mem name ha hf
    have hname : f'.name = some fullName := hname
    have hclass : f'.classId = none := by
      have hmethod : (f'.classId.isSome && f'.name.isSome) = false := hmethod
      rw [hname] at hmethod
      simpa using hmethod
    obtain ⟨n, t, hn, ht, heq⟩ := (hreaches.functions_named ha f' hf').2 fullName hname hclass
    refine ⟨n, t, hn, (List.getElem?_toArray ..).trans ht, heq.trans ?_⟩
    exact congrArg (Namespace.qualifyLocal · t.text) (name_namespaceAt_ofOutline name ha hlt).symm
  · intro c hc
    obtain ⟨c', hc', rfl, hlt⟩ := exists_class_of_mem name ha hc
    obtain ⟨before, x, after, hsplit, _, hindex, hheader⟩ := hreaches.headers_written ha c' hc'
    refine ⟨c'.parents, c'.interfaces, ⟨before, x, after, hsplit, hindex, ?_⟩, rfl, rfl⟩
    rw [hpaired]
    exact hheader
  · intro c hc full hfull
    obtain ⟨c', hc', rfl, hlt⟩ := exists_class_of_mem name ha hc
    obtain ⟨written, hwritten, rfl⟩ := List.mem_map.mp hfull
    obtain ⟨before, x, after, names, rest, o, outside, hsplit, hkey, hopened, hstart, hnames, hmem⟩ :=
      hreaches.traits_written ha c' hc' written hwritten
    have hx : x.isCloseBracket = false := by
      unfold Token.isKeyword at hkey
      simp only [Bool.and_eq_true, beq_iff_eq] at hkey
      unfold Token.isCloseBracket
      rw [hkey.1]
      rfl
    exact ⟨written, ⟨before.reverse, x, after, names, rest, hsplit, hkey,
      directlyIn_of_opened name ha hsplit hx hopened hstart, hnames, hmem⟩, rfl⟩

/-- An import behind the class that needs it. -/
theorem SourceFile.names_agree_late_import :
    ∃ file, SourceFile.parse "a.php"
        "<?php namespace A; class B extends C { use T; } use X\\C;".toUTF8 = .ok file ∧
      file.classes.toList.map (fun c => (c.name, c.parents, c.traits)) =
        [("A\\B", ["X\\C"], ["A\\T"])] ∧ file.NamesAgree := by
  have hclasses : (SourceFile.parse "a.php"
      "<?php namespace A; class B extends C { use T; } use X\\C;".toUTF8).toOption.map
        (·.classes.toList.map fun c => (c.name, c.parents, c.traits)) =
      some [("A\\B", ["X\\C"], ["A\\T"])] := by
    decide +kernel
  cases hparse : SourceFile.parse "a.php"
      "<?php namespace A; class B extends C { use T; } use X\\C;".toUTF8 with
  | error e =>
    rw [hparse] at hclasses
    contradiction
  | ok file =>
    rw [hparse] at hclasses
    exact ⟨file, rfl, Option.some.inj hclasses, SourceFile.names_agree hparse⟩

end PhpLint
