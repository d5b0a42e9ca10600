import PhpLint.Proofs.Model.Imports
import PhpLint.Proofs.Model.Qualify
import PhpLint.Proofs.Model.Spelling
import PhpLint.Proofs.Project.Database

/-!
Separators in front of names. Names of declarations, namespaces and imports never begin with one.
Of a name that is resolved only one is taken off, so that the full name may begin with another one.
-/
namespace PhpLint

theorem isBare_ofList {s : List Char} : IsBare (String.ofList s) ↔ s.head? ≠ some '\\' := by
  unfold IsBare
  rw [String.toList_ofList]

theorem isBare_dropLeading (name : String) : IsBare (Text.dropLeading '\\' name) := by
  unfold Text.dropLeading
  rw [isBare_ofList]
  intro hhead
  have hnot := List.head?_dropWhile_not (· == '\\') name.toList
  rw [hhead] at hnot
  exact absurd hnot (by decide)

/-! ### Resolved names -/

namespace Namespace

variable {ns : Namespace} {first s : List Char}

/-- A written name that resolves to one with a separator in front. -/
inductive KeepsSeparator (ns : Namespace) : List Char → Prop
  /-- Only the first one of two separators is dropped. -/
  | full (r : List Char) : KeepsSeparator ns ('\\' :: '\\' :: r)
  /-- In global code nothing is put in front of what is relative to the namespace. -/
  | relative {first : List Char} (r : List Char) (hglobal : ns.name = "")
    (hfirst : Text.sameFold (String.ofList first) "namespace" = true) :
    KeepsSeparator ns (first ++ '\\' :: '\\' :: r)
  /-- The first segment is an import of the empty name. -/
  | imported {first : List Char} (r : List Char) (hne : first ≠ []) (hfirst : '\\' ∉ first)
    (hother : Text.sameFold (String.ofList first) "namespace" = false)
    (himport : ns.imports.lookup (Text.fold (String.ofList first)) = some "") :
    KeepsSeparator ns (first ++ '\\' :: r)

theorem isBare_qualifyLocal_iff {space name : String} (hspace : IsBare space) :
    IsBare (qualifyLocal space name) ↔ (space = "" → IsBare name) := by
  unfold IsBare at *
  rw [toList_qualifyLocal]
  by_cases hempty : space = ""
  · simp [hempty]
  · have hne : space.toList ≠ [] := by simpa using hempty
    rw [if_neg (by simpa using hempty), List.append_assoc, List.head?_append_of_ne_nil _ hne]
    simp [hempty, hspace]

/-- Full names begin with a separator in these cases only. -/
theorem not_isBare_qualify_iff (hname : IsBare ns.name)
    (himports : ∀ entry ∈ ns.imports, IsBare entry.2) :
    ¬ IsBare (ns.qualify (String.ofList s)) ↔ ns.KeepsSeparator s := by
  constructor
  · intro h
    by_cases hs : s.head? = some '\\'
    · obtain ⟨r, rfl⟩ := List.head?_eq_some_iff.mp hs
      rw [qualify_full, isBare_ofList, ne_eq, not_not] at h
      obtain ⟨r', rfl⟩ := List.head?_eq_some_iff.mp h
      exact .full r'
    have hsegments := isSegments_takeWhile s
    generalize s.takeWhile (· != '\\') = first at hsegments
    generalize s.dropWhile (· != '\\') = rest at hsegments
    by_cases hrelative : IsRelative first rest
    · obtain ⟨r, rfl⟩ := hsegments.rest.resolve_left hrelative.2
      rw [qualify_relative hsegments hs hrelative, isBare_qualifyLocal_iff hname, isBare_ofList,
        Classical.not_imp, ne_eq, not_not] at h
      obtain ⟨r', rfl⟩ := List.head?_eq_some_iff.mp h.2
      rw [hsegments.eq]
      exact .relative r' h.1 hrelative.1
    · cases himport : ns.imports.lookup (Text.fold (String.ofList first)) with
      | none =>
        rw [qualify_local hsegments hs hrelative himport, isBare_qualifyLocal_iff hname] at h
        exact absurd (fun _ => isBare_ofList.mpr hs) h
      | some full =>
        have hfull : IsBare full := by
          obtain ⟨front, later, heq, -⟩ := List.lookup_eq_some_iff.mp himport
          apply himports (Text.fold (String.ofList first), full)
          rw [heq]
          exact List.mem_append_right _ List.mem_cons_self
        rw [qualify_imported hsegments hs hrelative himport] at h
        unfold IsBare at h hfull
        rw [ne_eq, not_not, String.toList_append, String.toList_ofList] at h
        have hempty : full = "" := by
          by_contra hne
          have hne : full.toList ≠ [] := by simpa using hne
          rw [List.head?_append_of_ne_nil _ hne] at h
          exact hfull h
        have hrest : rest ≠ [] := by
          rintro rfl
          simp [hempty] at h
        obtain ⟨r, rfl⟩ := hsegments.rest.resolve_left hrest
        have hother : Text.sameFold (String.ofList first) "namespace" = false := by
          simpa [IsRelative] using hrelative
        rw [hsegments.eq]
        exact .imported r (hsegments.ne_nil hs) hsegments.first hother (hempty ▸ himport)
  · intro h
    cases h with
    | full r =>
      rw [qualify_full, isBare_ofList]
      simp
    | @relative first r hglobal hfirst =>
      have hsegments : IsSegments first ('\\' :: '\\' :: r) (first ++ '\\' :: '\\' :: r) :=
        ⟨rfl, not_mem_of_sameFold hfirst, .inr ⟨_, rfl⟩⟩
      rw [qualify_relative hsegments (hsegments.head?_ne (ne_nil_of_sameFold hfirst))
        ⟨hfirst, List.cons_ne_nil _ _⟩, isBare_qualifyLocal_iff hname, isBare_ofList]
      simp [hglobal]
    | @imported first r hne hfirst hother himport =>
      have hsegments : IsSegments first ('\\' :: r) (first ++ '\\' :: r) :=
        ⟨rfl, hfirst, .inr ⟨_, rfl⟩⟩
      have hrelative : ¬ IsRelative first ('\\' :: r) := by
        intro hrelative
        have hfirst := hrelative.1
        rw [hother] at hfirst
        contradiction
      rw [qualify_imported hsegments (hsegments.head?_ne hne) hrelative himport]
      simp [IsBare]

/-- A written name with its full name, which begins with a separator in these cases only. -/
structure Resolves (ns : Namespace) (full written : String) : Prop where
  eq : full = ns.qualify written
  leading : ¬ IsBare full ↔ ns.KeepsSeparator written.toList

end Namespace

/-! ### Imports -/

namespace Import

/-- All full names of some imports are bare. -/
def AreBare (found : ImportMap) : Prop :=
  ∀ entry ∈ found, IsBare entry.2

theorem areBare_nil : AreBare [] :=
  fun _ hentry => absurd hentry List.not_mem_nil

variable {p : Progress}

theorem Progress.areBare_finish (h : AreBare p.found) : AreBare p.finish := by
  unfold finish
  split
  · exact h
  · intro entry hentry
    rcases List.mem_append.mp hentry with hentry | hentry
    · exact h entry hentry
    · rw [List.mem_singleton.mp hentry]
      exact isBare_dropLeading _

theorem Progress.areBare_next (h : AreBare p.found) (x : Lexeme) : AreBare (p.next x).found := by
  unfold next
  split_ifs <;> first | exact h | exact areBare_finish h

theorem areBare_readFrom (h : AreBare p.found) (s : List Lexeme) :
    AreBare (readFrom p s).1 := by
  induction s generalizing p with
  | nil => exact p.areBare_finish h
  | cons x r ih =>
    rw [readFrom]
    split_ifs
    · exact ih h
    · exact p.areBare_finish h
    · exact ih h
    · exact ih (p.areBare_next h x)

theorem areBare_read (s : List Lexeme) : AreBare (read s).1 := by
  unfold read
  dsimp only
  split_ifs
  · exact areBare_nil
  · exact areBare_readFrom areBare_nil s

theorem areBare_bindAll {m entries : ImportMap} (hm : AreBare m) (h : AreBare entries) :
    AreBare (m.bindAll entries) := by
  unfold ImportMap.bindAll
  induction entries generalizing m with
  | nil => exact hm
  | cons entry entries ih =>
    unfold AreBare at h
    rw [List.forall_mem_cons] at h
    apply ih _ h.2
    intro e he
    unfold ImportMap.bind at he
    rcases List.mem_cons.mp he with rfl | he
    · exact h.1
    · exact hm e (List.mem_filter.mp he).1

end Import

/-! ### Names of the pass -/

namespace Outline

variable {ts : List Token} {before after : List Lexeme} {x : Lexeme}

namespace Pass

variable {p p' : Pass} {size : Nat}

theorem areBare_importStatement (hold : ∀ ns ∈ p.namespaces, Import.AreBare ns.imports)
    (s : List Lexeme) :
    ∀ ns ∈ (p.importStatement size s).namespaces, Import.AreBare ns.imports := by
  unfold importStatement
  split_ifs
  · exact hold
  · change ∀ ns ∈ p.namespaces.modify (p.namespaces.size - 1) fun ns =>
      { ns with imports := ns.imports.bindAll (Import.read s).1 }, Import.AreBare ns.imports
    apply forall_modify hold
    intro ns _ hns
    exact Import.areBare_bindAll hns (Import.areBare_read s)

/-- Whatever is imported is bare. -/
theorem Reaches.areBare_imports (h : Reaches ts before p) :
    ∀ ns ∈ p.namespaces, Import.AreBare ns.imports := by
  induction h with
  | start =>
    intro ns hns
    rw [Array.mem_singleton.mp hns]
    exact Import.areBare_nil
  | @step p before after x h hsplit ih =>
    cases (step_cases p ts.length before x after).spaces with
    | same hnamespaces => rwa [hnamespaces]
    | ends _ _ hnamespaces =>
      rw [hnamespaces]
      apply forall_push
      · exact forall_modify ih _ fun ns _ hns => hns
      · exact Import.areBare_nil
    | imports _ _ _ _ _ hread =>
      rw [hread]
      exact areBare_importStatement ih after
    | declared _ _ hnamespaces =>
      rw [hnamespaces]
      apply forall_push
      · intro ns hns
        obtain ⟨old, hold, _, rfl⟩ := mem_endNamespace hns
        exact ih old hold
      · exact Import.areBare_nil

theorem name_of_className?_none {anonymous : Bool} {s r : List Lexeme} {name : String}
    (h : p.className? anonymous s = some (none, name, r)) : name = anonymousClassName := by
  unfold className? at h
  split at h
  · contradiction
  · split_ifs at h
    · obtain ⟨_, _, heq⟩ := Option.map_eq_some_iff.mp h
      cases heq
      rfl
    · cases h
      rfl
    · dsimp only at h
      split at h <;> cases h

/-- A class without a name is called so. -/
theorem Reaches.anonymous_classes (h : Reaches ts before p) :
    ∀ c ∈ p.classes, c.nameIndex = none → c.name = anonymousClassName := by
  induction h with
  | start => intro c hc; simp [Pass.start] at hc
  | @step p before after x h hsplit ih =>
    refine (step_cases p ts.length before x after).forall_classes ih
      (fun c _ _ _ _ _ hc => hc) fun kind c _ hclass _ hnone => ?_
    obtain ⟨_, _, _, _, hname, _⟩ := class?_eq_some hclass
    rw [hnone] at hname
    exact name_of_className?_none hname

end Pass

end Outline

/-! ### Names of a file -/

open Outline

namespace SourceFile

variable {file : SourceFile}

/-- The records of a file have bare names, and import bare names only. -/
theorem IsParsed.isBare_namespaces (h : file.IsParsed) :
    ∀ ns ∈ file.namespaces, IsBare ns.name ∧ Import.AreBare ns.imports := by
  obtain ⟨name, content, h⟩ := h
  obtain ⟨ts, found, hts, ha, rfl⟩ := parse_eq_ok h
  intro ns hns
  by_cases hempty : ts = []
  · subst hempty
    have heq : (SourceFile.ofOutline name [] (ofFinal [] found)).namespaces =
        [SourceFile.wholeFile 0] := List.mergeSort_singleton _
    rw [heq, List.mem_singleton] at hns
    rw [hns]
    exact ⟨by decide, Import.areBare_nil⟩
  · obtain ⟨old, hold, _, rfl⟩ := exists_of_mem_namespaces ha hempty hns
    have hreaches := Pass.reaches_final ts
    exact ⟨(hreaches.isName_namespaces (Token.spelled_of_ofContent hts) old hold).head,
      hreaches.areBare_imports old hold⟩

theorem IsParsed.namespaceAt_mem (h : file.IsParsed) (i : Nat) :
    file.namespaceAt i ∈ file.namespaces := by
  obtain ⟨name, content, h⟩ := h
  obtain ⟨ts, found, _, ha, rfl⟩ := parse_eq_ok h
  exact (Outline.namespaceAt_mem (inOrder_ofOutline name ha) i).1

theorem IsParsed.not_isBare_qualify_iff (h : file.IsParsed) (i : Nat) (written : String) :
    ¬ IsBare ((file.namespaceAt i).qualify written) ↔
      (file.namespaceAt i).KeepsSeparator written.toList := by
  obtain ⟨hname, himports⟩ := h.isBare_namespaces _ (h.namespaceAt_mem i)
  rw [← Namespace.not_isBare_qualify_iff hname himports, String.ofList_toList]

theorem IsParsed.isBare_class (h : file.IsParsed) : ∀ c ∈ file.classes, IsBare c.name := by
  intro c hc
  cases hnamed : c.nameIndex with
  | some n => exact (h.isFullName_class hc (by rw [hnamed]; rfl)).head
  | none =>
    obtain ⟨name, content, h⟩ := h
    obtain ⟨ts, found, _, ha, rfl⟩ := parse_eq_ok h
    obtain ⟨c', hc', rfl⟩ := Array.mem_map.mp hc
    have hanonymous := (Pass.reaches_final ts).anonymous_classes c' hc' hnamed
    change IsBare c'.name
    rw [hanonymous]
    decide

/-- What a class extends and implements is written in its header. -/
theorem IsParsed.header_resolves (h : file.IsParsed) {c : Class} (hc : c ∈ file.classes) :
    ∃ parents interfaces, file.WritesHeader c parents interfaces ∧
      List.Forall₂ (file.namespaceAt c.index).Resolves c.parents parents ∧
      List.Forall₂ (file.namespaceAt c.index).Resolves c.interfaces interfaces := by
  have hleading := h.not_isBare_qualify_iff c.index
  obtain ⟨name, content, h⟩ := h
  obtain ⟨ts, found, _, ha, rfl⟩ := parse_eq_ok h
  obtain ⟨c', hc', rfl, -⟩ := exists_class_of_mem name ha hc
  obtain ⟨before, x, after, hsplit, -, hindex, hheader⟩ :=
    (Pass.reaches_final ts).headers_written ha c' hc'
  have hpaired : (fun i j => (ofOutline name ts (ofFinal ts found)).pairedBracket i = some j) =
      Bracket.Partners found := by
    funext i j
    exact propext (ha.pairedBracket_iff name)
  have hresolves (names : List String) : List.Forall₂
      ((ofOutline name ts (ofFinal ts found)).namespaceAt c'.index).Resolves
      (names.map ((ofOutline name ts (ofFinal ts found)).namespaceAt c'.index).qualify) names := by
    rw [List.forall₂_map_left_iff, List.forall₂_same]
    intro written _
    exact ⟨rfl, hleading written⟩
  refine ⟨c'.parents, c'.interfaces, ⟨before, x, after, hsplit, hindex, ?_⟩,
    hresolves c'.parents, hresolves c'.interfaces⟩
  rw [hpaired]
  exact hheader

/-- What a class uses is written in its body. -/
theorem IsParsed.trait_resolves (h : file.IsParsed) {c : Class} (hc : c ∈ file.classes)
    {full : String} (hfull : full ∈ c.traits) :
    ∃ written, file.WritesTrait c written ∧ (file.namespaceAt c.index).Resolves full written := by
  have hleading := h.not_isBare_qualify_iff c.index
  obtain ⟨name, content, h⟩ := h
  obtain ⟨ts, found, _, ha, rfl⟩ := parse_eq_ok h
  obtain ⟨c', hc', rfl, -⟩ := exists_class_of_mem name ha hc
  obtain ⟨written, hwritten, rfl⟩ := List.mem_map.mp hfull
  obtain ⟨before, x, after, names, rest, o, outside, hsplit, hkey, hopened, hstart, hnames, hmem⟩ :=
    (Pass.reaches_final ts).traits_written ha c' hc' written hwritten
  have hx : x.isCloseBracket = false := by
    have hkind : x.kind = .keyword := by
      unfold Token.isKeyword at hkey
      simpa using (Bool.and_eq_true_iff.mp hkey).1
    unfold Token.isCloseBracket
    rw [hkind]
    rfl
  exact ⟨written, ⟨before.reverse, x, after, names, rest, hsplit, hkey,
    directlyIn_of_opened name ha hsplit hx hopened hstart, hnames, hmem⟩, rfl, hleading written⟩

/-- Which names of a file begin with a separator: no names of declarations, namespaces and imports,
and few of the names that are resolved. -/
structure LeadingSeparators (file : SourceFile) : Prop where
  namespaces : ∀ ns ∈ file.namespaces, IsBare ns.name
  imports : ∀ ns ∈ file.namespaces, ∀ entry ∈ ns.imports, IsBare entry.2
  classes : ∀ c ∈ file.classes, IsBare c.name
  functions : ∀ f ∈ file.functions, f.isMethod = false → ∀ name, f.name = some name → IsBare name
  resolved : ∀ written i, ¬ IsBare (file.qualify written i) ↔
    (file.namespaceAt i).KeepsSeparator written.toList
  headers : ∀ c ∈ file.classes, ∃ parents interfaces, file.WritesHeader c parents interfaces ∧
    List.Forall₂ (file.namespaceAt c.index).Resolves c.parents parents ∧
    List.Forall₂ (file.namespaceAt c.index).Resolves c.interfaces interfaces
  traits : ∀ c ∈ file.classes, ∀ full ∈ c.traits, ∃ written, file.WritesTrait c written ∧
    (file.namespaceAt c.index).Resolves full written

/-- A resolved name of an accepted file begins with a separator just if two of them stand in front of
it, or in front of what is relative to global code, or if its first segment is an import of the empty
name. -/
theorem leadingSeparators (h : file.IsParsed) : file.LeadingSeparators where
  namespaces ns hns := (h.isBare_namespaces ns hns).1
  imports ns hns := (h.isBare_namespaces ns hns).2
  classes := h.isBare_class
  functions f hf hfree name hname := by
    have hclass : f.classId = none := by simpa [Function.isMethod, hname] using hfree
    exact (h.isFullName_function hf hclass hname).head
  resolved written i := h.not_isBare_qualify_iff i written
  headers c hc := h.header_resolves hc
  traits c hc full hfull := h.trait_resolves hc hfull

/-- A class with one separator in front of its parent and two in front of its trait. -/
theorem leadingSeparators_trait : ∃ file, SourceFile.parse "a.php"
      "<?php namespace A; class B extends \\C \x7b use \\\\T; \x7d".toUTF8 = .ok file ∧
    (file.classes.toList.map fun c => (c.parents, c.traits)) = [(["C"], ["\\T"])] ∧
    file.LeadingSeparators := by
  have hclasses : (SourceFile.parse "a.php"
      "<?php namespace A; class B extends \\C \x7b use \\\\T; \x7d".toUTF8).toOption.map
        (fun file => file.classes.toList.map fun c => (c.parents, c.traits)) =
      some [(["C"], ["\\T"])] := by
    decide +kernel
  cases hparse : SourceFile.parse "a.php"
      "<?php namespace A; class B extends \\C \x7b use \\\\T; \x7d".toUTF8 with
  | error e =>
    rw [hparse] at hclasses
    contradiction
  | ok file =>
    rw [hparse] at hclasses
    exact ⟨file, rfl, Option.some.inj hclasses, leadingSeparators ⟨_, _, hparse⟩⟩

/-- Of two separators in front of a parent and of a name that is asked for one is left. -/
theorem not_isBare_resolved : ∃ file, SourceFile.parse "a.php"
      "<?php class A extends \\\\B \x7b \x7d".toUTF8 = .ok file ∧
    (∃ c ∈ file.classes, ∃ full ∈ c.parents, ¬ IsBare full) ∧
    0 < file.tokens.size ∧ ¬ IsBare (file.qualify "\\\\B" 0) := by
  have hfacts : (SourceFile.parse "a.php"
      "<?php class A extends \\\\B \x7b \x7d".toUTF8).toOption.map
        (fun file => decide ((∃ c ∈ file.classes, ∃ full ∈ c.parents, ¬ IsBare full) ∧
          0 < file.tokens.size ∧ ¬ IsBare (file.qualify "\\\\B" 0))) = some true := by
    decide +kernel
  cases hparse : SourceFile.parse "a.php"
      "<?php class A extends \\\\B \x7b \x7d".toUTF8 with
  | error e =>
    rw [hparse] at hfacts
    contradiction
  | ok file =>
    rw [hparse] at hfacts
    exact ⟨file, rfl, of_decide_eq_true (Option.some.inj hfacts)⟩

end SourceFile

end PhpLint
