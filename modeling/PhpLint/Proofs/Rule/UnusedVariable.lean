import PhpLint.Proofs.Model.Owner
import PhpLint.Proofs.Rule.Interpolation

/-!
Which reads of a variable keep an assignment from being reported. What reads a variable in the scope
of a function is said apart from the search through its body.
-/
namespace PhpLint.Rule.UnusedVariable

open PhpLint.Bracket (Indexed)
open SourceFile (parse)

/-! ### Scopes -/

/-- `outer` is the innermost function around the keyword of `inner`, apart from `inner` itself. -/
structure Encloses (file : SourceFile) (outer inner : Function) : Prop where
  outer_mem : outer ∈ file.functions
  inner_mem : inner ∈ file.functions
  before : outer.index < inner.index
  contains : outer.contains inner.index
  innermost : ∀ g ∈ file.functions, outer.index < g.index → g.index < inner.index →
    ¬ g.contains inner.index

instance (file : SourceFile) (outer inner : Function) : Decidable (Encloses file outer inner) :=
  decidable_of_iff
    (outer ∈ file.functions ∧ inner ∈ file.functions ∧ outer.index < inner.index ∧
      outer.contains inner.index ∧ ∀ g ∈ file.functions, outer.index < g.index →
        g.index < inner.index → ¬ g.contains inner.index)
    ⟨fun ⟨houter, hinner, hbefore, hcontains, hinnermost⟩ =>
        ⟨houter, hinner, hbefore, hcontains, hinnermost⟩,
      fun ⟨houter, hinner, hbefore, hcontains, hinnermost⟩ =>
        ⟨houter, hinner, hbefore, hcontains, hinnermost⟩⟩

/-- Arrow functions use the variables of the scope around them. -/
def IsArrow (file : SourceFile) (g : Function) : Prop :=
  ∃ t ∈ file.tokens[g.index]?, t.isKeyword "fn"

/-- `f` and the arrow functions nested in it, with the parameters bound on the way. -/
inductive Shares (file : SourceFile) (f : Function) : Function → List String → Prop where
  | self : Shares file f f []
  | arrow {g h : Function} {bound : List String} (hg : Shares file f g bound)
    (henclosed : Encloses file g h) (harrow : IsArrow file h) :
    Shares file f h (h.parameters.map (·.name) ++ bound)

/-- Whether a token is a text. -/
def IsText (t : Token) : Prop :=
  t.kind = .string ∨ t.kind = .heredoc

/-- Token `j` reads variable `v` in the scope of `f`. -/
inductive Reads (file : SourceFile) (f : Function) (v : String) (j : Nat) : Prop where
  | own {t : Token} (ht : file.tokens[j]? = some t) (howner : file.functionAt j = some f)
    (hkind : t.kind = .variable) (hname : t.text = v) (htarget : ¬ isPlainAssignment file j)
  | text {g : Function} {bound : List String} {t : Token} (hg : Shares file f g bound)
    (ht : file.tokens[j]? = some t)
    (howner : file.functionAt j = some g) (htext : IsText t)
    (hname : Interpolates t.text v ∨ InterpolatesBraced t.text v)
  | arrow {g : Function} {bound : List String} {t : Token} (hg : Shares file f g bound)
    (hne : g ≠ f) (ht : file.tokens[j]? = some t)
    (howner : file.functionAt j = some g) (hkind : t.kind = .variable) (hname : t.text = v)
    (hfree : v ∉ bound)
  /-- Token `j` is the keyword of a closure that takes the variable along. -/
  | capture {g h : Function} {bound : List String} (hg : Shares file f g bound)
    (henclosed : Encloses file g h) (hj : h.index = j) (hname : v ∈ h.usedVariables.map (·.name))

/-- The reads that are not seen. -/
inductive Overlooked (file : SourceFile) (f : Function) (v : String) (j : Nat) : Prop where
  /-- In front of the body, or behind it. -/
  | outside (hout : ∀ b, f.bodyStarts = some b → j < b ∨ f.bodyEnds < j)
  /-- As `${name}` only. -/
  | braced {t : Token} (ht : file.tokens[j]? = some t) (hbraced : InterpolatesBraced t.text v)
    (hplain : ¬ Interpolates t.text v)
  /-- In a text of an arrow function. -/
  | arrowText {g : Function} {t : Token} (ht : file.tokens[j]? = some t) (htext : IsText t)
    (howner : file.functionAt j = some g) (hne : g ≠ f)
  /-- In a function inside an arrow function. -/
  | nested {g h : Function} (howner : file.functionAt j = some g)
    (henclosed : Encloses file h g) (hne : h ≠ f)
  /-- In a function right behind the last token of another one. -/
  | behind {g h : Function} (howner : file.functionAt j = some g) (henclosed : Encloses file f g)
    (hmem : h ∈ file.functions) (hinside : f.index < h.index) (hends : h.bodyEnds + 1 = g.index)

variable {file : SourceFile} {f g h : Function} {bound : List String} {v : String} {i j : Nat}
  {t : Token} {u : Usage} {ts : List Token}

theorem Encloses.ne (h : Encloses file f g) : g ≠ f := fun heq =>
  absurd h.before (heq ▸ Nat.lt_irrefl _)

/-- A function other than `f` that shares its variables stands in another one that does. -/
theorem Shares.exists_encloses (hg : Shares file f g bound) (hne : g ≠ f) :
    ∃ g', Encloses file g' g ∧ IsArrow file g := by
  cases hg with
  | self => contradiction
  | arrow hg henclosed harrow => exact ⟨_, henclosed, harrow⟩

/-- A function is the innermost one around its keyword. -/
theorem functionAt_index {name : String} {content : ByteArray}
    (hparse : parse name content = .ok file) (hg : g ∈ file.functions) : file.functionAt g.index = some g := by
  have hfits := (SourceFile.functions_fit hparse g hg).index
  refine (SourceFile.functionAt_eq_some_iff hparse).mpr ⟨hg, ?_, fun k _ hlt hk => ?_⟩
  · exact Function.contains_iff.mpr ⟨Nat.le_refl _, Nat.le_of_lt hfits⟩
  · exact Nat.not_lt.mpr (Function.contains_iff.mp hk).1 hlt

/-- A function that `f` encloses stands directly inside it, or right behind another function. -/
theorem Encloses.directly_or_behind {name : String} {content : ByteArray}
    (hparse : parse name content = .ok file) (henclosed : Encloses file f g) :
    isDirectlyInside file f g ∨
      ∃ h ∈ file.functions, f.index < h.index ∧ h.bodyEnds + 1 = g.index := by
  have hlt := henclosed.before
  have hends : g.index ≤ f.bodyEnds := (Function.contains_iff.mp henclosed.contains).2
  have hbefore : f.contains (g.index - 1) :=
    Function.contains_iff.mpr ⟨by dsimp only; omega, by dsimp only; omega⟩
  obtain ⟨h, hinner, hle⟩ := SourceFile.exists_isInnermost henclosed.outer_mem hbefore
  have howner := (SourceFile.functionAt_eq_some_iff hparse).mpr hinner
  rcases Nat.eq_or_lt_of_le hle with heq | hbehind
  · refine Or.inl ?_
    unfold isDirectlyInside
    rw [howner, Option.any_some, ← heq]
    simp
    omega
  · have hcovers : h.index ≤ g.index - 1 ∧ g.index - 1 ≤ h.bodyEnds :=
      Function.contains_iff.mp hinner.contains
    have hnot : ¬ (h.index ≤ g.index ∧ g.index ≤ h.bodyEnds) := fun hin =>
      henclosed.innermost h hinner.mem hbehind (by omega) (Function.contains_iff.mpr hin)
    exact Or.inr ⟨h, hinner.mem, hbehind, by omega⟩

/-! ### The search -/

/-- What has been read stays read. -/
theorem mem_read_addToken (hv : v ∈ u.read) (file : SourceFile) (f : Function) (t : Token) :
    v ∈ (addToken file f u t).read := by
  have hadd (names : List String) : v ∈ (u.addRead names).read := List.mem_append_right names hv
  have hassign (name : String) (i : Nat) : v ∈ (u.assign name i).read := by
    unfold Usage.assign
    split <;> exact hv
  unfold addToken
  split
  · unfold innerToken
    dsimp only
    split
    · exact hv
    · split <;> split
      · exact List.mem_append_right _ (hadd _)
      · exact hadd _
      · exact hadd _
      · exact hv
  · unfold ownToken
    split
    · split <;> exact hv
    · split <;> exact hv
    · split <;> exact hv
    · split <;> [exact hassign _ _; exact hadd _]
    · exact hadd _
    · exact hadd _
    · exact hv

theorem mem_read_foldl (hv : v ∈ u.read) (file : SourceFile) (f : Function) (ts : List Token) :
    v ∈ (ts.foldl (addToken file f) u).read := by
  induction ts generalizing u with
  | nil => exact hv
  | cons t ts ih => exact ih (mem_read_addToken hv file f t)

theorem mem_read_of_mem (ht : t ∈ ts) (hread : ∀ u, v ∈ (addToken file f u t).read) (u : Usage) :
    v ∈ (ts.foldl (addToken file f) u).read := by
  obtain ⟨before, after, rfl⟩ := List.append_of_mem ht
  rw [List.foldl_append, List.foldl_cons]
  exact mem_read_foldl (hread _) file f after

/-- A token that a variable of `f` is assigned at. -/
structure IsTarget (file : SourceFile) (f : Function) (t : Token) : Prop where
  kind : t.kind = .variable
  assignment : isPlainAssignment file t.index
  owner : (file.functionAt t.index).filter (·.index != f.index) = none

theorem mem_assigned_addToken {entry : String × Nat}
    (hentry : entry ∈ (addToken file f u t).assigned) :
    entry ∈ u.assigned ∨ IsTarget file f t ∧ entry = (t.text, t.index) := by
  unfold addToken at hentry
  split at hentry
  · unfold innerToken at hentry
    dsimp only at hentry
    split at hentry
    · exact Or.inl hentry
    · split at hentry <;> split at hentry <;> exact Or.inl hentry
  · unfold ownToken at hentry
    split at hentry
    · split at hentry <;> exact Or.inl hentry
    · split at hentry <;> exact Or.inl hentry
    · split at hentry <;> exact Or.inl hentry
    · split at hentry
      · unfold Usage.assign at hentry
        split at hentry
        · exact Or.inl hentry
        · rcases List.mem_cons.mp hentry with rfl | hentry
          · exact Or.inr ⟨⟨‹_›, ‹_›, ‹_›⟩, rfl⟩
          · exact Or.inl hentry
      · exact Or.inl hentry
    all_goals exact Or.inl hentry

theorem mem_assigned_foldl {entry : String × Nat}
    (hentry : entry ∈ (ts.foldl (addToken file f) u).assigned) :
    entry ∈ u.assigned ∨ ∃ t ∈ ts, IsTarget file f t ∧ entry = (t.text, t.index) := by
  induction ts generalizing u with
  | nil => exact Or.inl hentry
  | cons t ts ih =>
    rcases ih hentry with hentry | ⟨t', ht', htarget⟩
    · exact (mem_assigned_addToken hentry).imp_right fun htarget =>
        ⟨t, List.mem_cons_self, htarget⟩
    · exact Or.inr ⟨t', List.mem_cons_of_mem t ht', htarget⟩

theorem exists_of_mem_unread (hi : i ∈ u.unread) :
    ∃ name, (name, i) ∈ u.assigned ∧ name ∉ u.read := by
  unfold Usage.unread at hi
  dsimp only at hi
  split at hi
  · contradiction
  · obtain ⟨⟨name, k⟩, hentry, rfl⟩ := List.mem_map.mp hi
    obtain ⟨hentry, hkept⟩ := List.mem_filter.mp hentry
    refine ⟨name, hentry, fun hread => ?_⟩
    simp [hread] at hkept

/-! ### What is seen -/

theorem addToken_own (howner : file.functionAt t.index = some f) :
    addToken file f u t = ownToken file u t := by
  have hown : (some f).filter (·.index != f.index) = none := by simp [Option.filter]
  unfold addToken
  rw [howner, hown]

theorem addToken_inner (howner : file.functionAt t.index = some g) (hne : g.index ≠ f.index) :
    addToken file f u t = innerToken file f g u t := by
  have hinner : (some g).filter (·.index != f.index) = some g := by simp [Option.filter, hne]
  unfold addToken
  rw [howner, hinner]

theorem mem_read_ownVariable (hkind : t.kind = .variable)
    (htarget : ¬ isPlainAssignment file t.index) : t.text ∈ (ownToken file u t).read := by
  unfold ownToken
  rw [hkind]
  dsimp only
  rw [if_neg htarget]
  exact List.mem_cons_self

theorem mem_read_ownText (htext : IsText t) (hv : v ∈ interpolated t.text) :
    v ∈ (ownToken file u t).read := by
  unfold ownToken
  rcases htext with hkind | hkind
  · rw [hkind]
    exact List.mem_append_left _ hv
  · rw [hkind]
    exact List.mem_append_left _ hv

theorem innerToken_of_inside (hinside : isDirectlyInside file f g) :
    innerToken file f g u t =
      let u := if t.index == g.index then u.addRead (g.usedVariables.map (·.name)) else u
      if file.tokens[g.index]?.any (·.isKeyword "fn") && t.kind == .variable then u.addRead [t.text]
      else u := by
  unfold innerToken
  rw [hinside]
  rfl

theorem mem_read_capture (hinside : isDirectlyInside file f g) (ht : t.index = g.index)
    (hv : v ∈ g.usedVariables.map (·.name)) : v ∈ (innerToken file f g u t).read := by
  have hadd : v ∈ (u.addRead (g.usedVariables.map (·.name))).read := List.mem_append_left _ hv
  have hkeyword : (t.index == g.index) = true := by simpa using ht
  rw [innerToken_of_inside hinside, hkeyword, if_pos rfl]
  dsimp only
  split
  · exact List.mem_append_right _ hadd
  · exact hadd

theorem mem_read_arrow (hinside : isDirectlyInside file f g) (harrow : IsArrow file g)
    (hkind : t.kind = .variable) : t.text ∈ (innerToken file f g u t).read := by
  obtain ⟨x, hx, hword⟩ := harrow
  rw [innerToken_of_inside hinside, Option.mem_def.mp hx, Option.any_some, hword, hkind]
  exact List.mem_cons_self

/-- The tokens of a body. -/
def bodyTokens (file : SourceFile) (f : Function) (start : Nat) : List Token :=
  (file.tokens.extract start (f.bodyEnds + 1)).toList

theorem mem_bodyTokens {start : Nat} (ht : file.tokens[j]? = some t) (hfrom : start ≤ j)
    (hto : j ≤ f.bodyEnds) : t ∈ bodyTokens file f start := by
  have hget : (file.tokens.extract start (f.bodyEnds + 1))[j - start]? = some t := by
    have hsize := (Array.getElem?_eq_some_iff.mp ht).1
    rw [Array.getElem?_extract, if_pos (by omega), Nat.add_sub_cancel' hfrom, ht]
  exact Array.mem_toList_iff.mpr (Array.mem_of_getElem? hget)

/-- A variable that the search finds no read of is read nowhere else than where it does not look. -/
theorem overlooked_of_reads {name : String} {content : ByteArray}
    (hparse : parse name content = .ok file) {start : Nat} (hstart : f.bodyStarts = some start)
    (hunread : v ∉ ((bodyTokens file f start).foldl (addToken file f) u).read)
    (hreads : Reads file f v j) : Overlooked file f v j := by
  by_cases hbody : start ≤ j ∧ j ≤ f.bodyEnds
  · have hindex {t : Token} (ht : file.tokens[j]? = some t) : t.index = j := by
      refine Lexeme.index_of_getElem? (SourceFile.tokens_indexed hparse) ?_
      rwa [Array.getElem?_toList]
    -- a token of the body that enters the variable whatever was read before it cannot be there
    have hseen {t : Token} (ht : file.tokens[j]? = some t)
        (hread : ∀ u, v ∈ (addToken file f u t).read) : False :=
      hunread (mem_read_of_mem (mem_bodyTokens ht hbody.1 hbody.2) hread u)
    cases hreads with
    | own ht howner hkind hname htarget =>
      rw [← hindex ht] at howner htarget
      refine (hseen ht fun u => ?_).elim
      rw [addToken_own howner, ← hname]
      exact mem_read_ownVariable hkind htarget
    | @text g bound t hg ht howner htext hname =>
      by_cases hne : g = f
      · subst hne
        by_cases hplain : Interpolates t.text v
        · rw [← hindex ht] at howner
          refine (hseen ht fun u => ?_).elim
          rw [addToken_own howner]
          exact mem_read_ownText htext (mem_interpolated_of_interpolates hplain)
        · exact .braced ht (hname.resolve_left hplain) hplain
      · exact .arrowText ht htext howner hne
    | @arrow g bound t hg hne ht howner hkind hname hfree =>
      obtain ⟨g', henclosed, harrow⟩ := hg.exists_encloses hne
      by_cases houter : g' = f
      · subst houter
        rcases henclosed.directly_or_behind hparse with hinside | ⟨h, hmem, hlt, hends⟩
        · have hne := Nat.ne_of_gt henclosed.before
          have howner' := howner
          rw [← hindex ht] at howner'
          refine (hseen ht fun u => ?_).elim
          rw [addToken_inner howner' hne, ← hname]
          exact mem_read_arrow hinside harrow hkind
        · exact .behind howner henclosed hmem hlt hends
      · exact .nested howner henclosed houter
    | @capture g h bound hg henclosed hj hname =>
      subst hj
      have howner := functionAt_index hparse henclosed.inner_mem
      by_cases houter : g = f
      · subst houter
        rcases henclosed.directly_or_behind hparse with hinside | ⟨k, hmem, hlt, hends⟩
        · have hfits := SourceFile.functions_fit hparse h henclosed.inner_mem
          have hsize : h.index < file.tokens.size := Nat.lt_trans hfits.index hfits.size
          have ht := Array.getElem?_eq_getElem hsize
          have howner' := howner
          rw [← hindex ht] at howner'
          refine (hseen ht fun u => ?_).elim
          rw [addToken_inner howner' (Nat.ne_of_gt henclosed.before)]
          exact mem_read_capture hinside (hindex ht) hname
        · exact .behind howner henclosed hmem hlt hends
      · exact .nested howner henclosed houter
  · refine .outside fun b hb => ?_
    rw [hstart, Option.some.injEq] at hb
    omega

/-- A token that is reported for a function. -/
theorem target_of_mem_unusedIn {name : String} {content : ByteArray}
    (hparse : parse name content = .ok file) (hf : f ∈ file.functions)
    (hi : i ∈ unusedIn file f) :
    ∃ t, file.tokens[i]? = some t ∧ file.functionAt i = some f ∧ IsTarget file f t ∧
      ∀ j, Reads file f t.text j → Overlooked file f t.text j := by
  unfold unusedIn at hi
  cases hstart : f.bodyStarts with
  | none =>
    rw [hstart] at hi
    contradiction
  | some start =>
    rw [hstart] at hi
    obtain ⟨v, hassigned, hunread⟩ := exists_of_mem_unread hi
    rcases mem_assigned_foldl hassigned with hnone | ⟨t, ht, htarget, hentry⟩
    · contradiction
    · obtain ⟨rfl, rfl⟩ := Prod.mk.inj hentry
      have hbody : ∃ k, start ≤ k ∧ k ≤ f.bodyEnds ∧ file.tokens[k]? = some t := by
        obtain ⟨k, hk⟩ := Array.mem_iff_getElem?.mp (Array.mem_toList_iff.mp ht)
        rw [Array.getElem?_extract] at hk
        split at hk
        · exact ⟨start + k, by omega, by omega, hk⟩
        · contradiction
      obtain ⟨k, hfrom, hto, hk⟩ := hbody
      have hindex : t.index = k := by
        refine Lexeme.index_of_getElem? (SourceFile.tokens_indexed hparse) ?_
        rwa [Array.getElem?_toList]
      subst hindex
      refine ⟨t, hk, ?_, htarget, fun j => overlooked_of_reads hparse hstart hunread⟩
      have hcontains : f.contains t.index := by
        have hbody := (SourceFile.functions_fit hparse f hf).body start hstart
        exact Function.contains_iff.mpr ⟨by dsimp only; omega, hto⟩
      obtain ⟨g, hg, _⟩ := SourceFile.exists_isInnermost hf hcontains
      have howner := (SourceFile.functionAt_eq_some_iff hparse).mpr hg
      have hown := htarget.owner
      rw [howner, Option.filter_eq_none_iff] at hown
      have heq : g.index = f.index := by simpa using hown g rfl
      rwa [SourceFile.eq_of_index_eq hparse hg.mem hf heq] at howner

end PhpLint.Rule.UnusedVariable
