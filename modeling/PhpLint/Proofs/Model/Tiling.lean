import PhpLint.Proofs.Model.Naming

/-!
Namespace records tile a file exactly if no namespace is declared inside a bracket. A namespace
inside the braces of another one leaves a record that is passed over when the outer braces close.
-/
namespace PhpLint.Outline

/-! ### Records that tile a file -/

/-- A record starts right behind the end of another one. -/
def Follows (a b : Namespace) : Prop :=
  ∃ e, a.bodyEnds = some e ∧ a.index ≤ e ∧ b.index = e + 1

/-- Records cut up so many tokens without a gap. -/
structure Tile (records : List Namespace) (size : Nat) : Prop where
  first : records.head?.map (·.index) = some 0
  follows : records.IsChain Follows
  last : ∃ ns, records.getLast? = some ns ∧ ns.index ≤ size - 1 ∧ ns.bodyEnds = some (size - 1)

variable {records l : List Namespace} {a b ns : Namespace} {size i j k : Nat}

theorem Follows.lt (h : Follows a b) : a.index < b.index := by
  obtain ⟨e, _, hle, heq⟩ := h
  omega

/-- Only the start of the last record matters for the one before. -/
theorem isChain_replace_last (h : (l ++ [a]).IsChain Follows) (hindex : b.index = a.index) :
    (l ++ [b]).IsChain Follows := by
  obtain ⟨hl, _, hlast⟩ := List.isChain_append.mp h
  refine List.isChain_append.mpr ⟨hl, List.isChain_singleton b, ?_⟩
  intro x hx y hy
  obtain ⟨e, he, hle, heq⟩ := hlast x hx a rfl
  cases Option.some.inj hy
  exact ⟨e, he, hle, hindex.trans heq⟩

theorem isChain_concat (h : (l ++ [a]).IsChain Follows) (hb : Follows a b) :
    (l ++ [a] ++ [b]).IsChain Follows := by
  refine List.isChain_append.mpr ⟨h, List.isChain_singleton b, ?_⟩
  intro x hx y hy
  rw [List.getLast?_concat] at hx
  cases Option.some.inj hx
  cases Option.some.inj hy
  exact hb

theorem pairwise_of_isChain (h : records.IsChain Follows) :
    records.Pairwise (·.index < ·.index) := by
  have hlt : (records.map (·.index)).IsChain (· < ·) :=
    (List.isChain_map _).mpr (h.imp fun _ _ hab => hab.lt)
  exact List.pairwise_map.mp (List.isChain_iff_pairwise.mp hlt)

/-- Records without a gap hold every token from the first on once. -/
theorem existsUnique_contains (hchain : (ns :: records).IsChain Follows)
    (hlast : ∃ last, (ns :: records).getLast? = some last ∧ last.bodyEnds = some (size - 1))
    (hfrom : ns.index ≤ i) (hto : i < size) : ∃! m, m ∈ ns :: records ∧ m.contains i := by
  induction records generalizing ns with
  | nil =>
    obtain ⟨last, heq, hends⟩ := hlast
    obtain rfl : ns = last := Option.some.inj heq
    refine ⟨ns, ⟨List.mem_cons_self, ?_⟩, fun m hm => List.mem_singleton.mp hm.1⟩
    unfold Namespace.contains
    simp only [hends, Option.all_some, Bool.and_eq_true, decide_eq_true_eq]
    omega
  | cons next records ih =>
    obtain ⟨hfollows, hrest⟩ := List.isChain_cons_cons.mp hchain
    obtain ⟨e, hends, hle, hnext⟩ := hfollows
    by_cases hi : i ≤ e
    · refine ⟨ns, ⟨List.mem_cons_self, ?_⟩, ?_⟩
      · unfold Namespace.contains
        simp [hends, hfrom, hi]
      · rintro m ⟨hm, hcontains⟩
        rcases List.mem_cons.mp hm with rfl | hm
        · rfl
        -- later records start behind the token
        have hindex : next.index ≤ m.index := by
          rcases List.mem_cons.mp hm with rfl | hm
          · exact Nat.le_refl _
          · exact Nat.le_of_lt ((List.pairwise_cons.mp (pairwise_of_isChain hrest)).1 m hm)
        unfold Namespace.contains at hcontains
        simp only [Bool.and_eq_true, decide_eq_true_eq] at hcontains
        omega
    · have hlast' : ∃ last, (next :: records).getLast? = some last ∧
          last.bodyEnds = some (size - 1) := by
        rwa [List.getLast?_cons_cons] at hlast
      obtain ⟨m, ⟨hm, hcontains⟩, hunique⟩ := ih hrest hlast' (by omega)
      refine ⟨m, ⟨List.mem_cons_of_mem ns hm, hcontains⟩, ?_⟩
      rintro m' ⟨hm', hcontains'⟩
      rcases List.mem_cons.mp hm' with rfl | hm'
      · unfold Namespace.contains at hcontains'
        simp only [hends, Option.all_some, Bool.and_eq_true, decide_eq_true_eq] at hcontains'
        omega
      · exact hunique m' ⟨hm', hcontains'⟩

theorem Tile.existsUnique (h : Tile records size) (hi : i < size) :
    ∃! ns, ns ∈ records ∧ ns.contains i := by
  obtain ⟨last, hlast, _, hends⟩ := h.last
  cases records with
  | nil => contradiction
  | cons ns records =>
    have hfirst : ns.index = 0 := Option.some.inj h.first
    exact existsUnique_contains h.follows ⟨last, hlast, hends⟩ (by omega) hi

/-! ### During the pass -/

/-- No bracket pair lies around a token. -/
def AtTop (found : List (Nat × Nat)) (i : Nat) : Prop :=
  ∀ pair ∈ found, ¬ (pair.1 < i ∧ i < pair.2)

/-- The record of a namespace whose body a bracket is. -/
def Scope.record? : Scope → Option Nat
  | .namespaceBody record => some record
  | _ => none

namespace Pass

variable {p p' : Pass} {before after : List Lexeme} {x y : Lexeme}

/-- Records of the namespaces whose braces are open, innermost first. -/
def openSpaces (p : Pass) : List Nat :=
  p.scopes.filterMap Scope.record?

/-- Records of the namespaces whose braces are still to come, with the positions of those. -/
def announcedSpaces (p : Pass) : List (Nat × Nat) :=
  p.bodies.filterMap fun body => body.2.record?.map (body.1, ·)

theorem mem_announcedSpaces {record : Nat} :
    (k, record) ∈ p.announcedSpaces ↔ (k, .namespaceBody record) ∈ p.bodies := by
  unfold announcedSpaces
  rw [List.mem_filterMap]
  constructor
  · rintro ⟨⟨k', scope⟩, hbody, heq⟩
    cases scope with
    | namespaceBody record' => cases heq; exact hbody
    | _ => contradiction
  · intro hbody
    exact ⟨_, hbody, rfl⟩

theorem announcedSpaces_filter (p : Pass) (k : Nat) :
    ((p.bodies.filter (·.1 != k)).filterMap fun body => body.2.record?.map (body.1, ·)) =
      p.announcedSpaces.filter (·.1 != k) := by
  unfold announcedSpaces
  induction p.bodies with
  | nil => rfl
  | cons body bodies ih =>
    obtain ⟨k', scope⟩ := body
    by_cases hk : k' = k
    · rw [List.filter_cons_of_neg (by simp [hk]), ih]
      cases scope with
      | namespaceBody record =>
        rw [List.filterMap_cons]
        exact (List.filter_cons_of_neg (by simp [hk])).symm
      | _ => rfl
    · rw [List.filter_cons_of_pos (by simp [hk])]
      cases scope with
      | namespaceBody record =>
        refine Eq.trans (congrArg ((k', record) :: ·) ih) ?_
        exact (List.filter_cons_of_pos (by simp [hk])).symm
      | _ => exact ih

/-- A statement declares a namespace, or it leaves records and braces of namespaces alone. -/
theorem Statement.namespaces_cases (h : p.Statement size before x after p') :
    ((∃ f : ImportMap → ImportMap, p'.namespaces = p.namespaces.modify (p.namespaces.size - 1)
        fun ns => { ns with imports := f ns.imports }) ∧
      p'.announcedSpaces = p.announcedSpaces) ∨
    ∃ name y, x.isKeyword "namespace" ∧ p.atNamespaceLevel ∧ y ∈ after ∧
      p' = p.addNamespace size x.index name y := by
  have hkept : ∃ f : ImportMap → ImportMap, p.namespaces =
      p.namespaces.modify (p.namespaces.size - 1) fun ns => { ns with imports := f ns.imports } :=
    ⟨fun m => m, (modify_same _ _).symm⟩
  cases h with
  | property =>
    obtain ⟨f, type, heq, _⟩ := propertyDeclaration_eq p _ before x
    rw [heq]
    exact Or.inl ⟨hkept, rfl⟩
  | imports =>
    obtain ⟨f, skipUntil, heq⟩ := importStatement_eq p size after
    rw [heq]
    exact Or.inl ⟨⟨f, rfl⟩, rfl⟩
  | constants =>
    obtain ⟨id, f, constants, modifiers, heq, _⟩ := constantDeclaration_eq p after
    rw [heq]
    exact Or.inl ⟨hkept, rfl⟩
  | «namespace» hkey hlevel hname =>
    exact Or.inr ⟨_, _, hkey, hlevel,
      (Lexeme.readName_suffix after).mem (hname ▸ List.mem_cons_self), rfl⟩
  | function =>
    obtain ⟨bodies, heq, hbodies⟩ := addFunction_eq p x.index _
    rw [heq, hbodies]
    refine Or.inl ⟨hkept, ?_⟩
    split <;> rfl
  | _ => exact Or.inl ⟨hkept, rfl⟩

/-! ### A namespace inside another one -/

/--
A namespace is declared at token `j` inside a bracket. The braces of an earlier record are around
it, open still or closed behind it.
-/
def Overlaps (found : List (Nat × Nat)) (p : Pass) (i : Nat) : Prop :=
  ∃ record k j, record < k ∧ Holds p.namespaces (fun ns => ns.index = j ∧ j < ns.bodyStarts) k ∧
    ¬ AtTop found j ∧ j < i ∧ (record ∈ p.openSpaces ∨
      Holds p.namespaces (fun ns => ∃ e, ns.bodyEnds = some e ∧ j ≤ e) record)

variable {found : List (Nat × Nat)} {ts : List Token}

/-- A new namespace leaves all records but the last alone. -/
theorem getElem?_endNamespace {record : Nat} (h : record + 1 < p.namespaces.size) (i : Nat) :
    (p.endNamespace i).namespaces[record]? = p.namespaces[record]? := by
  cases hback : p.namespaces.back? with
  | none =>
    rw [Array.back?_eq_none_iff.mp hback] at h
    contradiction
  | some last =>
    obtain ⟨records, heq⟩ := Array.back?_eq_some_iff.mp hback
    rw [heq, Array.size_push] at h
    have hpush (ns : Namespace) : (records.push ns)[record]? = records[record]? := by
      rw [Array.getElem?_push, if_neg (by omega)]
    rw [endNamespace_of_push heq, heq, hpush]
    split
    · rfl
    · exact hpush _

theorem Overlaps.imports (h : Overlaps found p i) {f : ImportMap → ImportMap}
    (hnamespaces : p'.namespaces = p.namespaces.modify (p.namespaces.size - 1) fun ns =>
      { ns with imports := f ns.imports }) (hscopes : p'.scopes = p.scopes) :
    Overlaps found p' i := by
  obtain ⟨record, k, j, hlt, hns, hlevel, hj, hopen⟩ := h
  refine ⟨record, k, j, hlt, ?_, hlevel, hj, ?_⟩
  · rw [hnamespaces]
    exact hns.modify _ fun ns hns => hns
  · unfold openSpaces
    rw [hscopes, hnamespaces]
    exact hopen.imp id fun hends => hends.modify _ fun ns hns => hns

/-- Nothing makes an overlap good again. -/
theorem Overlaps.step (h : Overlaps found p i) (hi : i ≤ x.index)
    (hstep : p.Step size before x after p') : Overlaps found p' (x.index + 1) := by
  have hmono {p : Pass} (h : Overlaps found p i) : Overlaps found p (x.index + 1) := by
    obtain ⟨record, k, j, hlt, hns, hlevel, hj, hopen⟩ := h
    exact ⟨record, k, j, hlt, hns, hlevel, by omega, hopen⟩
  cases hstep with
  | opening hopen =>
    obtain ⟨modifiers, type, heq⟩ := openBracket_eq p x
    rw [heq]
    obtain ⟨record, k, j, hlt, hns, hlevel, hj, hopen⟩ := h
    refine ⟨record, k, j, hlt, hns, hlevel, by omega, hopen.imp_left fun hmem => ?_⟩
    exact ((List.sublist_cons_self _ _).filterMap _).subset hmem
  | closing hclose =>
    cases hscopes : p.scopes with
    | nil =>
      rw [closeBracket_of_nil hscopes]
      exact hmono h
    | cons scope scopes =>
      obtain ⟨modifiers, type, heq⟩ := closeBracket_eq hscopes x
      rw [heq]
      obtain ⟨record, k, j, hlt, hns, hlevel, hj, hopen⟩ := h
      unfold openSpaces at hopen
      rw [hscopes] at hopen
      cases scope with
      | namespaceBody record' =>
        refine ⟨record, k, j, hlt, ?_, hlevel, by omega, ?_⟩
        · exact (hns.modify (f := ({ · with bodyEnds := some x.index })) record'
            fun ns hns => hns).push _
        · have hkeeps (ns : Namespace) (_ : ∃ e, ns.bodyEnds = some e ∧ j ≤ e) :
              ∃ e, { ns with bodyEnds := some x.index }.bodyEnds = some e ∧ j ≤ e :=
            ⟨x.index, rfl, by omega⟩
          rcases hopen with hmem | hends
          · rcases List.mem_cons.mp hmem with rfl | hmem
            · -- the braces around it close
              refine Or.inr (Holds.push ?_ _)
              have hsize := hns.lt
              refine ⟨{ p.namespaces[record] with bodyEnds := some x.index }, ?_, x.index, rfl,
                by omega⟩
              change (p.namespaces.modify record _)[record]? = _
              rw [Array.getElem?_modify, if_pos rfl, Array.getElem?_eq_getElem (by omega)]
              rfl
            · exact Or.inl hmem
          · exact Or.inr ((hends.modify record' hkeeps).push _)
      | _ => exact ⟨record, k, j, hlt, hns, hlevel, by omega, hopen⟩
  | readAhead => exact hmono h
  | statement _ _ _ hstatement =>
    rcases hstatement.namespaces_cases with ⟨⟨f, hnamespaces⟩, _⟩ | ⟨name, y, _, _, hy, rfl⟩
    · exact hmono (h.imports hnamespaces hstatement.scopes)
    · obtain ⟨bodies, heq, _⟩ := addNamespace_eq p size x.index name y
      rw [heq]
      obtain ⟨record, k, j, hlt, hns, hlevel, hj, hopen⟩ := h
      have hsize := hns.lt
      refine ⟨record, k, j, hlt, ?_, hlevel, by omega, hopen.imp id ?_⟩
      · exact (holds_endNamespace (i := x.index) hns (fun ns hns => by omega)
          fun ns _ hns => hns).push _
      · rintro ⟨ns, hns, hends⟩
        exact Holds.push ⟨ns, by rw [getElem?_endNamespace (by omega), hns], hends⟩ _

/-! ### Namespaces outside of brackets -/

/-- Where the braces of the namespace in force are, if it has some. -/
inductive Phase (p : Pass) : Prop where
  | free (hopen : p.openSpaces = []) (hannounced : p.announcedSpaces = [])
  | announced {k record : Nat} (hopen : p.openSpaces = [])
    (hannounced : p.announcedSpaces = [(k, record)]) (hskip : p.skipUntil = k)
    (hlast : record + 1 = p.namespaces.size)
  | inside {record : Nat} (hopen : p.openSpaces = [record]) (hannounced : p.announcedSpaces = [])
    (hlast : record + 1 = p.namespaces.size)

/-- Records without a gap up to the last one, which is open. -/
structure Tiling (found : List (Nat × Nat)) (size : Nat) (p : Pass) : Prop where
  follows : p.namespaces.toList.IsChain Follows
  last : ∀ ns, p.namespaces.back? = some ns → ns.bodyEnds = none ∨ ns.bodyEnds = some (size - 1)
  phase : p.Phase
  atTop : ∀ ns ∈ p.namespaces, ns.index < ns.bodyStarts → AtTop found ns.index

theorem Tiling.congr (h : p.Tiling found size) (hnamespaces : p'.namespaces = p.namespaces)
    (hphase : p'.Phase) : p'.Tiling found size := by
  obtain ⟨hfollows, hlast, _, hatTop⟩ := h
  rw [← hnamespaces] at hfollows hlast hatTop
  exact ⟨hfollows, hlast, hphase, hatTop⟩

theorem tiling_of_push (xs : Array Namespace) (last : Namespace)
    (hnamespaces : p.namespaces = xs.push last) (hfollows : (xs.toList ++ [last]).IsChain Follows)
    (hlast : last.bodyEnds = none ∨ last.bodyEnds = some (size - 1)) (hphase : p.Phase)
    (hatTop : ∀ ns ∈ xs.push last, ns.index < ns.bodyStarts → AtTop found ns.index) :
    p.Tiling found size := by
  refine ⟨?_, ?_, hphase, ?_⟩
  · rw [hnamespaces, Array.toList_push]
    exact hfollows
  · intro ns hns
    rw [hnamespaces, Array.back?_push] at hns
    cases Option.some.inj hns
    exact hlast
  · rw [hnamespaces]
    exact hatTop

theorem modify_last {α : Type} (xs : Array α) (a : α) (f : α → α) :
    (xs.push a).modify xs.size f = xs.push (f a) := by
  apply Array.ext_getElem?
  intro i
  rw [Array.getElem?_modify, Array.getElem?_push, Array.getElem?_push]
  by_cases hi : i = xs.size
  · rw [if_pos hi.symm, if_pos hi, if_pos hi]
    rfl
  · rw [if_neg (Ne.symm hi), if_neg hi, if_neg hi]

/-! ### Braces of namespaces -/

theorem mem_announcedSpaces_of_lookup {record : Nat}
    (h : ((p.bodies.lookup k).getD .block).record? = some record) :
    (k, record) ∈ p.announcedSpaces := by
  cases hlookup : p.bodies.lookup k with
  | none =>
    rw [hlookup] at h
    contradiction
  | some scope =>
    rw [hlookup] at h
    cases scope with
    | namespaceBody record' =>
      cases h
      exact mem_announcedSpaces.mpr (mem_of_lookup hlookup)
    | _ => contradiction

theorem Phase.openBracket (h : p.Phase)
    (hscopes : p'.scopes = (p.bodies.lookup x.index).getD .block :: p.scopes)
    (hbodies : p'.bodies = p.bodies.filter (·.1 != x.index)) (hskip : p'.skipUntil = p.skipUntil)
    (hsize : p'.namespaces.size = p.namespaces.size) : p'.Phase := by
  have hannounced' : p'.announcedSpaces = p.announcedSpaces.filter (·.1 != x.index) := by
    rw [← announcedSpaces_filter, ← hbodies]
    rfl
  have hopen' : p'.openSpaces =
      ((p.bodies.lookup x.index).getD .block).record?.toList ++ p.openSpaces := by
    unfold openSpaces
    rw [hscopes]
    cases hrecord : ((p.bodies.lookup x.index).getD .block).record? with
    | none => rw [List.filterMap_cons_none hrecord]; rfl
    | some record => rw [List.filterMap_cons_some hrecord]; rfl
  -- only a bracket that is announced opens a namespace
  have hnone (hnot : ∀ record, (x.index, record) ∉ p.announcedSpaces) :
      p'.openSpaces = p.openSpaces := by
    rw [hopen']
    cases hrecord : ((p.bodies.lookup x.index).getD .block).record? with
    | none => rfl
    | some record => exact absurd (mem_announcedSpaces_of_lookup hrecord) (hnot record)
  cases h with
  | free hopen hannounced =>
    refine .free ?_ ?_
    · rw [hnone (by simp [hannounced]), hopen]
    · rw [hannounced', hannounced]
      rfl
  | @announced k record hopen hannounced hskip' hlast =>
    by_cases hk : k = x.index
    · have hfree : p'.announcedSpaces = [] := by
        rw [hannounced', hannounced, List.filter_cons_of_neg (by simp [hk])]
        rfl
      cases hrecord : ((p.bodies.lookup x.index).getD .block).record? with
      | none =>
        rw [hrecord, hopen] at hopen'
        exact .free hopen' hfree
      | some record' =>
        have hmem := mem_announcedSpaces_of_lookup hrecord
        rw [hannounced, List.mem_singleton] at hmem
        cases hmem
        rw [hrecord, hopen] at hopen'
        exact .inside hopen' hfree (hlast.trans hsize.symm)
    · have hkept : p'.announcedSpaces = [(k, record)] := by
        rw [hannounced', hannounced, List.filter_cons_of_pos (by simp [hk])]
        rfl
      refine .announced ?_ hkept (hskip.trans hskip') (hlast.trans hsize.symm)
      rw [hnone ?_, hopen]
      intro record' hmem
      rw [hannounced, List.mem_singleton] at hmem
      cases hmem
      exact hk rfl
  | @inside record hopen hannounced hlast =>
    refine .inside ?_ ?_ (hlast.trans hsize.symm)
    · rw [hnone (by simp [hannounced]), hopen]
    · rw [hannounced', hannounced]
      rfl

theorem Phase.congr (h : p.Phase) (hopen : p'.openSpaces = p.openSpaces)
    (hannounced : p'.announcedSpaces = p.announcedSpaces) (hskip : p'.skipUntil = p.skipUntil)
    (hsize : p'.namespaces.size = p.namespaces.size) : p'.Phase := by
  cases h with
  | free h₁ h₂ => exact .free (hopen.trans h₁) (hannounced.trans h₂)
  | announced h₁ h₂ h₃ h₄ =>
    exact .announced (hopen.trans h₁) (hannounced.trans h₂) (hskip.trans h₃) (h₄.trans hsize.symm)
  | inside h₁ h₂ h₃ => exact .inside (hopen.trans h₁) (hannounced.trans h₂) (h₃.trans hsize.symm)

/-! ### One step -/

/-- A closing brace of a namespace ends its record and opens one for what follows. -/
theorem Tiling.closeBracket (h : p.Tiling found size)
    (horder : InOrder (marks p.namespaces.toList) x.index) :
    (p.closeBracket x).Tiling found size := by
  cases hscopes : p.scopes with
  | nil =>
    rw [closeBracket_of_nil hscopes]
    exact h
  | cons scope scopes =>
    obtain ⟨modifiers, type, heq⟩ := closeBracket_eq hscopes x
    rw [heq]
    cases scope with
    | namespaceBody record =>
      have hopen : p.openSpaces = record :: scopes.filterMap Scope.record? := by
        unfold openSpaces
        rw [hscopes]
        rfl
      obtain ⟨xs, last, hxs⟩ := horder.exists_push
      have hle : last.index ≤ x.index := by
        refine horder.le (last.index, last.name) ?_
        rw [hxs, marks_push]
        exact List.mem_append_right _ (List.mem_singleton_self _)
      obtain ⟨hfollows, _, hphase, hatTop⟩ := h
      rw [hxs] at hatTop
      rw [hxs, Array.toList_push] at hfollows
      have hlast : record = xs.size ∧ scopes.filterMap Scope.record? = [] ∧
          p.announcedSpaces = [] := by
        cases hphase with
        | free h₁ => rw [h₁] at hopen; contradiction
        | announced h₁ => rw [h₁] at hopen; contradiction
        | inside h₁ h₂ h₃ =>
          rw [h₁] at hopen
          rw [hxs, Array.size_push] at h₃
          obtain ⟨rfl, hrest⟩ := List.cons.inj hopen
          exact ⟨Nat.succ.inj h₃, hrest.symm, h₂⟩
      obtain ⟨rfl, hrest, hannounced⟩ := hlast
      refine tiling_of_push (xs.push { last with bodyEnds := some x.index })
        (.globalFrom (x.index + 1)) ?_ ?_ (Or.inl rfl) (.free hrest hannounced) ?_
      · change (p.namespaces.modify xs.size _).push _ = _
        rw [hxs, modify_last]
      · rw [Array.toList_push]
        exact isChain_concat (isChain_replace_last hfollows rfl) ⟨x.index, rfl, hle, rfl⟩
      · refine forall_push (forall_push ?_ ?_) fun hlt => absurd hlt (Nat.lt_irrefl _)
        · exact fun ns hns => hatTop ns (Array.mem_push_of_mem last hns)
        · exact hatTop last Array.mem_push_self
    | _ =>
      refine h.congr rfl (h.phase.congr ?_ rfl rfl rfl)
      unfold openSpaces
      rw [hscopes]
      rfl

/-- A namespace that is declared outside of brackets goes on where the last record ends. -/
theorem Tiling.addNamespace (h : p.Tiling found size)
    (horder : InOrder (marks p.namespaces.toList) x.index) (hscopes : p.scopes = [])
    (hannounced : p.announcedSpaces = []) (htop : AtTop found x.index) (name : String) (y : Lexeme) :
    (p.addNamespace size x.index name y).Tiling found size := by
  obtain ⟨bodies, heq, hbodies⟩ := addNamespace_eq p size x.index name y
  obtain ⟨xs, last, hxs⟩ := horder.exists_push
  have hle : last.index ≤ x.index := by
    refine horder.le (last.index, last.name) ?_
    rw [hxs, marks_push]
    exact List.mem_append_right _ (List.mem_singleton_self _)
  have hopen : p.openSpaces = [] := by
    unfold openSpaces
    rw [hscopes]
    rfl
  obtain ⟨hfollows, _, _, hatTop⟩ := h
  rw [hxs] at hatTop
  rw [hxs, Array.toList_push] at hfollows
  have hearlier (ns : Namespace) (hns : ns ∈ xs) := hatTop ns (Array.mem_push_of_mem last hns)
  rw [heq]
  have hphase (p' : Pass) (h₁ : p'.scopes = p.scopes) (h₂ : p'.bodies = bodies)
      (h₃ : p'.skipUntil = y.index)
      (h₄ : p'.namespaces.size = (p.endNamespace x.index).namespaces.size + 1) : p'.Phase := by
    have hopen' : p'.openSpaces = [] := by
      unfold openSpaces
      rw [h₁]
      exact hopen
    by_cases hbrace : y.is "\x7b"
    · rw [if_pos hbrace] at hbodies
      refine .announced hopen' ?_ h₃ h₄.symm
      unfold announcedSpaces
      rw [h₂, hbodies]
      exact congrArg _ hannounced
    · rw [if_neg hbrace] at hbodies
      refine .free hopen' ?_
      unfold announcedSpaces
      rw [h₂, hbodies]
      exact hannounced
  refine tiling_of_push (p.endNamespace x.index).namespaces (namespaceRecord size x.index name y)
    rfl ?_ (Or.inr rfl) (hphase _ rfl rfl rfl (Array.size_push ..)) ?_
  · rw [endNamespace_of_push hxs]
    split
    · rename_i hge
      exact isChain_replace_last hfollows (Nat.le_antisymm hge hle)
    · rename_i hlt
      rw [Array.toList_push]
      refine isChain_concat (isChain_replace_last hfollows rfl) ⟨x.index - 1, rfl, ?_, ?_⟩
      · dsimp only
        omega
      · change x.index = x.index - 1 + 1
        omega
  · refine forall_push ?_ fun _ => htop
    rw [endNamespace_of_push hxs]
    split
    · exact hearlier
    · exact forall_push hearlier (hatTop last Array.mem_push_self)

/-- A namespace that is declared inside the braces of another one overlaps it. -/
theorem overlaps_addNamespace {record : Nat} (hopen : record ∈ p.openSpaces)
    (hrecord : Holds p.namespaces (·.index < x.index) record) (hy : x.index < y.index)
    (htop : ¬ AtTop found x.index) (name : String) :
    Overlaps found (p.addNamespace size x.index name y) (x.index + 1) := by
  obtain ⟨bodies, heq, _⟩ := addNamespace_eq p size x.index name y
  have hlt : record < (p.endNamespace x.index).namespaces.size :=
    (holds_endNamespace hrecord (fun ns hns => hns) fun ns _ hns => hns).lt
  rw [heq]
  refine ⟨record, _, x.index, hlt, holds_push ⟨rfl, ?_⟩, htop, Nat.lt_succ_self _, Or.inl hopen⟩
  unfold namespaceRecord
  dsimp only
  split <;> omega

/-- What is open in front of a lexeme lies around it. -/
theorem atTop_iff_opened (ha : Accepted ts found)
    (hsplit : Lexeme.ofTokens false ts = before.reverse ++ x :: after)
    (hx : x.isCloseBracket = false) : AtTop found x.index ↔ Lexeme.opened before = [] := by
  constructor
  · intro htop
    cases hopened : Lexeme.opened before with
    | nil => rfl
    | cons o outside =>
      have hmem : o.index ∈ (Lexeme.opened before).map (·.index) := by
        rw [hopened]
        exact List.mem_map_of_mem List.mem_cons_self
      obtain ⟨e, hpair, hlt, hle⟩ := (ha.mem_opened_iff hsplit).mp hmem
      have hne := ha.ne_of_mem hsplit hx hpair
      exact absurd ⟨hlt, show x.index < e by omega⟩ (htop _ hpair)
  · rintro hnil ⟨o, e⟩ hpair ⟨hlt, hle⟩
    have hmem := (ha.mem_opened_iff hsplit).mpr ⟨e, hpair, hlt, Nat.le_of_lt hle⟩
    rw [hnil] at hmem
    contradiction

/-- An announced brace lies ahead, and so do all statements. -/
theorem Phase.not_announced (hphase : p.Phase) (htracks : p.Tracks before (x :: after))
    (ha : Accepted ts found) (hsplit : Lexeme.ofTokens false ts = before.reverse ++ x :: after)
    (hopen : x.isOpenBracket = false) (hskip : p.skipUntil ≤ x.index) : p.announcedSpaces = [] := by
  cases hphase with
  | free _ hannounced => exact hannounced
  | inside _ hannounced => exact hannounced
  | @announced k record _ hannounced hskip' _ =>
    have hbody := mem_announcedSpaces.mp (hannounced ▸ List.mem_singleton_self (k, record))
    obtain ⟨_, y, hy, hindex, hbracket⟩ := htracks.bodies _ hbody
    rcases List.mem_cons.mp hy with rfl | hy
    · rw [hopen] at hbracket
      contradiction
    · have := (List.pairwise_cons.mp (ha.rising hsplit).1).1 y hy
      dsimp only at hindex
      omega

theorem Phase.statement (hphase : p.Phase) (hannounced : p.announcedSpaces = [])
    (hopen : p'.openSpaces = p.openSpaces) (hannounced' : p'.announcedSpaces = p.announcedSpaces)
    (hsize : p'.namespaces.size = p.namespaces.size) : p'.Phase := by
  cases hphase with
  | free h₁ _ => exact .free (hopen.trans h₁) (hannounced'.trans hannounced)
  | announced _ h₂ =>
    rw [hannounced] at h₂
    contradiction
  | inside h₁ _ h₃ =>
    exact .inside (hopen.trans h₁) (hannounced'.trans hannounced) (h₃.trans hsize.symm)

/-- A step leaves no gap, or it declares a namespace inside the braces of another one. -/
theorem Tiling.step (h : p.Tiling found ts.length) (hreaches : Reaches ts before p)
    (ha : Accepted ts found) (hsplit : Lexeme.ofTokens false ts = before.reverse ++ x :: after)
    (hstep : p.Step ts.length before x after p') :
    p'.Tiling found ts.length ∨ Overlaps found p' (x.index + 1) := by
  have hx := ((ha.between hsplit).between x List.mem_cons_self).1
  have horder := (hreaches.inOrder ha).mono hx
  have htracks := hreaches.tracks ha hsplit
  cases hstep with
  | opening hopen =>
    obtain ⟨modifiers, type, heq⟩ := openBracket_eq p x
    rw [heq]
    exact Or.inl (h.congr rfl (h.phase.openBracket rfl rfl rfl rfl))
  | closing hclose => exact Or.inl (h.closeBracket horder)
  | readAhead => exact Or.inl h
  | statement hopen hclose hskip hstatement =>
    have hannounced := h.phase.not_announced htracks ha hsplit hopen hskip
    have hscopes := hstatement.scopes
    rcases hstatement.namespaces_cases with ⟨⟨f, hnamespaces⟩, hkept⟩ | ⟨name, y, _, hlevel, hy, rfl⟩
    · refine Or.inl ?_
      have hphase := h.phase.statement hannounced (congrArg (List.filterMap Scope.record?) hscopes) hkept
        (by rw [hnamespaces, Array.size_modify])
      obtain ⟨xs, last, hxs⟩ := horder.exists_push
      obtain ⟨hfollows, hlast, _, hatTop⟩ := h
      have hends := hlast last (by rw [hxs, Array.back?_push])
      rw [hxs] at hatTop
      rw [hxs, Array.toList_push] at hfollows
      rw [hxs, Array.size_push, Nat.add_sub_cancel, modify_last] at hnamespaces
      refine tiling_of_push xs _ hnamespaces (isChain_replace_last hfollows rfl) hends hphase ?_
      exact forall_push (fun ns hns => hatTop ns (Array.mem_push_of_mem last hns))
        (hatTop last Array.mem_push_self)
    · have htop := atTop_iff_opened ha hsplit hclose
      cases hopened : p.scopes with
      | nil =>
        refine Or.inl (h.addNamespace horder hopened hannounced (htop.mpr ?_) name y)
        have hscopes := htracks.scopes
        rw [hopened] at hscopes
        exact List.forall₂_nil_right_iff.mp hscopes
      | cons scope scopes =>
        refine Or.inr ?_
        unfold atNamespaceLevel at hlevel
        rw [hopened] at hlevel
        cases scope with
        | namespaceBody record =>
          have hscopes := htracks.scopes
          rw [hopened] at hscopes
          obtain ⟨o, outside, _, _, hbefore⟩ := List.forall₂_cons_right_iff.mp hscopes
          have hmem : Scope.namespaceBody record ∈ p.scopes := hopened ▸ List.mem_cons_self
          refine overlaps_addNamespace ?_ (((hreaches.sound ha).scopes _ hmem).mono hx hx) ?_ ?_ name
          · exact List.mem_filterMap.mpr ⟨_, hmem, rfl⟩
          · exact (List.pairwise_cons.mp (ha.rising hsplit).1).1 y hy
          · rw [htop, hbefore]
            exact List.cons_ne_nil _ _
        | _ => contradiction

theorem Reaches.tiling_or_overlaps (h : Reaches ts before p) (ha : Accepted ts found) :
    p.Tiling found ts.length ∨ Overlaps found p (reach before) := by
  induction h with
  | start =>
    refine Or.inl (tiling_of_push #[] (.globalFrom 0) rfl (List.isChain_singleton _) (Or.inl rfl)
      (.free rfl rfl) ?_)
    intro ns hns hlt
    rw [Array.mem_push, or_iff_right (Array.not_mem_empty ns)] at hns
    rw [hns] at hlt
    exact absurd hlt (Nat.lt_irrefl _)
  | @step p before after x h hsplit ih =>
    have hx := ((ha.between hsplit).between x List.mem_cons_self).1
    have hstep := step_cases p ts.length before x after
    rcases ih with htiling | hoverlaps
    · exact htiling.step h ha hsplit hstep
    · exact Or.inr (hoverlaps.step hx hstep)

/-! ### Behind the pass -/

theorem contains_of_mem_finished (h : ns ∈ p.finishedNamespaces size) : ns.contains ns.index := by
  unfold finishedNamespaces at h
  split at h
  · contradiction
  · have hkept := (List.mem_filter.mp h).2
    unfold Namespace.contains
    simp only [Bool.and_eq_true] at hkept ⊢
    exact ⟨by simp, hkept.2⟩

/-- Records without a gap tile the file once the last one ends with it. -/
theorem Tiling.tile (h : (final ts).Tiling found ts.length) (ha : Accepted ts found)
    (hts : ts ≠ []) : Tile ((final ts).finishedNamespaces ts.length) ts.length := by
  have horder := (reaches_final ts).inOrder ha
  have hfinished := inOrder_finishedNamespaces ha hts
  have hfirst := hfinished.first
  have hpos : 0 < ts.length := List.length_pos_iff.mpr hts
  obtain ⟨xs, last, hxs⟩ := horder.exists_push
  obtain ⟨hfollows, hlast, _, _⟩ := h
  have hends := hlast last (by rw [hxs, Array.back?_push])
  rw [hxs, Array.toList_push] at hfollows
  have hendLast : (endLast (ts.length - 1) last).index = last.index := by
    rcases endLast_cases (ts.length - 1) last with heq | ⟨heq, _⟩ <;> rw [heq]
  have hrecords : (final ts).finishedNamespaces ts.length =
      (xs.toList ++ [endLast (ts.length - 1) last]).filter (·.index ≤ ts.length - 1) := by
    rw [finishedNamespaces_eq ha hts, hxs, Array.size_push, Nat.add_sub_cancel, modify_last,
      Array.toList_push]
  rw [marks, List.head?_map, Option.map_map] at hfirst
  have hpairwise := List.pairwise_append.mp (pairwise_of_isChain hfollows)
  by_cases hin : last.index ≤ ts.length - 1
  · -- the last record starts in the file and ends with it
    have hall : (final ts).finishedNamespaces ts.length =
        xs.toList ++ [endLast (ts.length - 1) last] := by
      rw [hrecords, List.filter_eq_self]
      intro ns hns
      rcases List.mem_append.mp hns with hns | hns
      · have := hpairwise.2.2 ns hns last (List.mem_singleton_self _)
        simp only [decide_eq_true_eq]
        omega
      · rw [List.mem_singleton.mp hns, hendLast]
        simpa using hin
    rw [hall] at hfirst ⊢
    refine ⟨hfirst, isChain_replace_last hfollows hendLast, endLast (ts.length - 1) last,
      List.getLast?_concat, hendLast ▸ hin, ?_⟩
    rcases endLast_cases (ts.length - 1) last with heq | ⟨heq, e, he, _⟩
    · rw [heq]
    · rw [heq, he]
      rcases hends with hnone | hsome
      · rw [he] at hnone
        contradiction
      · rw [← hsome, he]
  · -- the last record starts behind the file, and the one before it ends with the file
    have hall : (final ts).finishedNamespaces ts.length =
        xs.toList.filter (·.index ≤ ts.length - 1) := by
      rw [hrecords, List.filter_append,
        List.filter_cons_of_neg (by simpa [hendLast] using hin), List.filter_nil, List.append_nil]
    obtain ⟨hchain, _, hbefore⟩ := List.isChain_append.mp hfollows
    cases hback : xs.toList.getLast? with
    | none =>
      rw [hall, List.getLast?_eq_none_iff.mp hback] at hfirst
      contradiction
    | some before =>
      obtain ⟨e, he, hle, hindex⟩ := hbefore before hback last rfl
      have hlastLe : last.index ≤ ts.length := by
        have hlelast := horder.le (last.index, last.name) (by
          rw [hxs, marks_push]
          exact List.mem_append_right _ (List.mem_singleton_self _))
        exact Nat.le_trans hlelast (ha.reach_le (final_split ts))
      have hkept : xs.toList.filter (·.index ≤ ts.length - 1) = xs.toList := by
        rw [List.filter_eq_self]
        intro ns hns
        have := hpairwise.2.2 ns hns last (List.mem_singleton_self _)
        simp only [decide_eq_true_eq]
        omega
      rw [hall, hkept] at hfirst ⊢
      exact ⟨hfirst, hchain, before, hback, by omega, by rw [he]; congr 1; omega⟩

/-- Declared namespaces of a file are outside of brackets if records leave no gap. -/
theorem Tiling.atTop_finished (h : (final ts).Tiling found ts.length) (ha : Accepted ts found)
    (hts : ts ≠ []) : ∀ ns ∈ (final ts).finishedNamespaces ts.length,
      ns.index < ns.bodyStarts → AtTop found ns.index := by
  intro ns hns
  rw [finishedNamespaces_eq ha hts] at hns
  have hmem := Array.mem_toList_iff.mp (List.mem_filter.mp hns).1
  refine forall_modify (P := fun ns => ns.index < ns.bodyStarts → AtTop found ns.index) h.atTop _
    (fun ns _ hatTop => ?_) ns hmem
  rcases endLast_cases (ts.length - 1) ns with heq | ⟨heq, _⟩ <;> rwa [heq]

/-- An overlap shows in the records of the file. -/
theorem Overlaps.finished (h : Overlaps found (final ts) i) (ha : Accepted ts found)
    (hts : ts ≠ []) : ∃ outer ∈ (final ts).finishedNamespaces ts.length,
      ∃ inner ∈ (final ts).finishedNamespaces ts.length, outer.index < inner.index ∧
        outer.contains inner.index ∧ inner.index < inner.bodyStarts ∧
        ¬ AtTop found inner.index := by
  have hreaches := reaches_final ts
  obtain ⟨record, k, j, hlt, ⟨ns, hns, rfl, hstart⟩, htop, _, hopen⟩ := h
  have hclosed : (final ts).openSpaces = [] := by
    unfold openSpaces
    rw [scopes_final ha]
    rfl
  rw [hclosed, or_iff_right (List.not_mem_nil)] at hopen
  obtain ⟨outer, houter, e, he, hle⟩ := hopen
  have hk := (Array.getElem?_eq_some_iff.mp hns).1
  -- the token of the inner namespace lies in the file, for a bracket closes behind it
  have hinner : ns.index ≤ ts.length - 1 := by
    unfold AtTop at htop
    push Not at htop
    obtain ⟨⟨o, c⟩, hpair, _, hc⟩ := htop
    obtain ⟨before, x, after, hsplit, _, rfl⟩ := ha.exists_split_closing hpair
    have := ((ha.between hsplit).between x List.mem_cons_self).2
    dsimp only at hc
    omega
  have hindex : outer.index < ns.index := by
    have hrising := (hreaches.inOrder ha).rising
    rw [marks, List.pairwise_map, List.pairwise_iff_getElem] at hrising
    have hget := hrising record k (by simp; omega) (by simpa using hk) hlt
    rw [Array.getElem_toList, Array.getElem_toList, Array.getElem_eq_iff.mpr houter,
      Array.getElem_eq_iff.mpr hns] at hget
    exact hget
  have hmem (r : Nat) (m m' : Namespace) (hm : (final ts).namespaces[r]? = some m)
      (hm' : m' = if (final ts).namespaces.size - 1 = r then endLast (ts.length - 1) m else m)
      (hlast : m'.index ≤ ts.length - 1) :
      m' ∈ (final ts).finishedNamespaces ts.length := by
    rw [finishedNamespaces_eq ha hts]
    refine List.mem_filter.mpr ⟨Array.mem_toList_iff.mpr (Array.mem_of_getElem? (i := r) ?_),
      by simpa using hlast⟩
    rw [Array.getElem?_modify, hm, hm']
    split <;> rfl
  obtain ⟨inner, hmemInner, hindexInner, hstartInner⟩ :
      ∃ inner ∈ (final ts).finishedNamespaces ts.length,
        inner.index = ns.index ∧ inner.bodyStarts = ns.bodyStarts := by
    have hsame : (if (final ts).namespaces.size - 1 = k then endLast (ts.length - 1) ns
        else ns).index = ns.index ∧ (if (final ts).namespaces.size - 1 = k then
          endLast (ts.length - 1) ns else ns).bodyStarts = ns.bodyStarts := by
      split
      · rcases endLast_cases (ts.length - 1) ns with heq | ⟨heq, _⟩ <;> rw [heq] <;> exact ⟨rfl, rfl⟩
      · exact ⟨rfl, rfl⟩
    exact ⟨_, hmem k ns _ hns rfl (hsame.1 ▸ hinner), hsame⟩
  refine ⟨outer, hmem record outer outer houter (by rw [if_neg (by omega)]) (by omega), inner,
    hmemInner, by omega, ?_, by omega, hindexInner ▸ htop⟩
  unfold Namespace.contains
  rw [he, hindexInner]
  simp [Nat.le_of_lt hindex, hle]

end Pass

end PhpLint.Outline

namespace PhpLint.SourceFile

open Outline

/-- No namespace of a file is declared inside a bracket. -/
def NamespacesAtTop (file : SourceFile) : Prop :=
  ∀ ns ∈ file.namespaces, ns.index < ns.bodyStarts →
    ∀ o e, file.pairedBracket o = some e → ¬ (o < ns.index ∧ ns.index < e)

/--
The namespace records of a file tile its tokens exactly if no namespace is declared inside a
bracket, and otherwise some token lies in two records.
-/
theorem namespaces_tile_iff {name : String} {content : ByteArray} {file : SourceFile}
    (h : SourceFile.parse name content = .ok file) (hne : content.size ≠ 0) :
    (Tile file.namespaces file.tokens.size ↔ file.NamespacesAtTop) ∧
    ((∀ i < file.tokens.size, ∃! ns, ns ∈ file.namespaces ∧ ns.contains i) ↔
      file.NamespacesAtTop) := by
  obtain ⟨ts, found, hcontent, ha, rfl⟩ := parse_eq_ok h
  have hts : ts ≠ [] := by
    rintro rfl
    have htext := (Token.tiles_of_ofContent hcontent).text
    rw [← htext] at hne
    exact hne rfl
  have hsize : (ofOutline name ts (ofFinal ts found)).tokens.size = ts.length := List.size_toArray ..
  have hatTop (i : Nat) : AtTop found i ↔
      ∀ o e, (ofOutline name ts (ofFinal ts found)).pairedBracket o = some e → ¬ (o < i ∧ i < e) := by
    constructor
    · intro htop o e hpair hbetween
      rcases (ha.pairedBracket_iff name).mp hpair with hpair | hpair
      · exact htop _ hpair hbetween
      · have := ha.lt_of_mem hpair
        omega
    · intro hnone pair hpair
      exact hnone _ _ ((ha.pairedBracket_iff name).mpr (Or.inl hpair))
  unfold NamespacesAtTop
  simp only [← hatTop]
  rw [namespaces_ofOutline name ha hts, hsize]
  rcases (Pass.reaches_final ts).tiling_or_overlaps ha with htiling | hoverlaps
  · have htile := htiling.tile ha hts
    have htop := htiling.atTop_finished ha hts
    exact ⟨⟨fun _ => htop, fun _ => htile⟩, ⟨fun _ => htop, fun _ i hi => htile.existsUnique hi⟩⟩
  · obtain ⟨outer, houter, inner, hinner, hlt, hcontains, hstart, hnot⟩ :=
      hoverlaps.finished ha hts
    have hfalse : ¬ ∀ ns ∈ (Pass.final ts).finishedNamespaces ts.length,
        ns.index < ns.bodyStarts → AtTop found ns.index :=
      fun htop => hnot (htop inner hinner hstart)
    have htwice : ¬ ∀ i < ts.length, ∃! ns, ns ∈ (Pass.final ts).finishedNamespaces ts.length ∧
        ns.contains i := by
      intro hunique
      have hle := (Pass.inOrder_finishedNamespaces ha hts).le (inner.index, inner.name)
        (List.mem_map_of_mem hinner)
      have hpos : 0 < ts.length := List.length_pos_iff.mpr hts
      obtain ⟨ns, _, honly⟩ := hunique inner.index (by dsimp only at hle; omega)
      have hsame : outer = inner := (honly outer ⟨houter, hcontains⟩).trans
        (honly inner ⟨hinner, Pass.contains_of_mem_finished hinner⟩).symm
      rw [hsame] at hlt
      exact Nat.lt_irrefl _ hlt
    exact ⟨iff_of_false (fun htile => htwice fun i hi => htile.existsUnique hi) hfalse,
      iff_of_false htwice hfalse⟩

/-- Two namespaces that end with a statement and with braces. -/
theorem namespaces_tile_iff_both_forms :
    let content := "<?php namespace A; namespace B { }".toUTF8
    ∃ file, SourceFile.parse "a.php" content = .ok file ∧ content.size ≠ 0 ∧
      (Tile file.namespaces file.tokens.size ↔ file.NamespacesAtTop) ∧
      ((∀ i < file.tokens.size, ∃! ns, ns ∈ file.namespaces ∧ ns.contains i) ↔
        file.NamespacesAtTop) := by
  intro content
  have hparses : (SourceFile.parse "a.php" content).toOption.isSome := by decide +kernel
  have hne : content.size ≠ 0 := by decide
  cases hparse : SourceFile.parse "a.php" content with
  | error e =>
    rw [hparse] at hparses
    contradiction
  | ok file => exact ⟨file, rfl, hne, namespaces_tile_iff hparse hne⟩

/-- The braces of `A` are around `B`, and close behind it. -/
theorem namespaces_overlap :
    ∃ file, SourceFile.parse "a.php" "<?php namespace A { namespace B { } }".toUTF8 = .ok file ∧
      ¬ Tile file.namespaces file.tokens.size ∧
      ¬ ∀ i < file.tokens.size, ∃! ns, ns ∈ file.namespaces ∧ ns.contains i := by
  have hparses : (SourceFile.parse "a.php"
      "<?php namespace A { namespace B { } }".toUTF8).toOption.isSome := by
    decide +kernel
  have hnames : (Token.ofContent "<?php namespace A { namespace B { } }".toUTF8).toOption.map
      (fun ts => ((((Pass.final ts).finishedNamespaces ts.length).filter (·.contains 7)).map
        (·.name), ts.length)) = some (["A", "B"], 16) := by
    decide +kernel
  cases hparse : SourceFile.parse "a.php" "<?php namespace A { namespace B { } }".toUTF8 with
  | error e =>
    rw [hparse] at hparses
    contradiction
  | ok file =>
    obtain ⟨ts, found, hcontent, ha, rfl⟩ := parse_eq_ok hparse
    rw [hcontent] at hnames
    obtain ⟨hnames, hsize⟩ := Prod.mk.inj (Option.some.inj hnames)
    have hts : ts ≠ [] := by
      rintro rfl
      contradiction
    have htwice : ¬ ∀ i < (ofOutline "a.php" ts (ofFinal ts found)).tokens.size,
        ∃! ns, ns ∈ (ofOutline "a.php" ts (ofFinal ts found)).namespaces ∧ ns.contains i := by
      intro hunique
      obtain ⟨ns, _, honly⟩ := hunique 7 (by
        rw [show (ofOutline "a.php" ts (ofFinal ts found)).tokens.size = 16 from hsize]
        decide)
      have hsame (n : String) (hn : n ∈ ["A", "B"]) : n = ns.name := by
        rw [← hnames] at hn
        obtain ⟨ns', hns', rfl⟩ := List.mem_map.mp hn
        rw [← namespaces_ofOutline "a.php" ha hts] at hns'
        rw [honly ns' (List.mem_filter.mp hns')]
      have hA := hsame "A" (by simp)
      rw [← hsame "B" (by simp)] at hA
      exact absurd hA (by decide)
    exact ⟨_, rfl, fun htile => htwice fun i hi => htile.existsUnique hi, htwice⟩

end PhpLint.SourceFile
