import PhpLint.Proofs.Model.Forest

/-!
What the tables of a file say about a token: the extent around it that starts last. In a file that
has been read extents are recorded in the order of their starts, so that it is the innermost one.
-/
namespace PhpLint

variable {table : Array (Option Nat)} {size i k : Nat}

/-- Whether a position lies in an extent. -/
def Covers (extent : Nat × Nat) (i : Nat) : Prop :=
  extent.1 ≤ i ∧ i ≤ extent.2

instance (extent : Nat × Nat) (i : Nat) : Decidable (Covers extent i) :=
  inferInstanceAs (Decidable (_ ∧ _))

theorem size_fillRange (table : Array (Option Nat)) (id first last : Nat) :
    (fillRange table id first last).size = table.size := by
  unfold fillRange
  induction List.range' first (last + 1 - first) generalizing table with
  | nil => rfl
  | cons i is ih => rw [List.foldl_cons, ih, Array.size_setIfInBounds]

theorem getElem?_fillRange (hi : i < table.size) (id first last : Nat) :
    (fillRange table id first last)[i]? =
      if Covers (first, last) i then some (some id) else table[i]? := by
  have hfold (positions : List Nat) (table : Array (Option Nat)) (hi : i < table.size) :
      (positions.foldl (fun t j => t.setIfInBounds j (some id)) table)[i]? =
        if i ∈ positions then some (some id) else table[i]? := by
    induction positions generalizing table with
    | nil => rfl
    | cons j js ih =>
      rw [List.foldl_cons, ih _ (by rwa [Array.size_setIfInBounds])]
      by_cases hj : j = i
      · subst hj
        simp [hi]
      · simp [hj, Ne.symm hj]
  have hmem : i ∈ List.range' first (last + 1 - first) ↔ Covers (first, last) i := by
    rw [List.mem_range'_1]
    unfold Covers
    dsimp only
    omega
  unfold fillRange
  rw [hfold _ _ hi]
  simp only [hmem]

/-- A range of positions with the number that it leaves in a table. -/
abbrev NumberedExtent := (Nat × Nat) × Nat

/-- A table with numbered extents laid down one after the other. -/
def layDown (size : Nat) (extents : List NumberedExtent) : Array (Option Nat) :=
  extents.foldl (fun table ((first, last), id) => fillRange table id first (min last (size - 1)))
    (Array.replicate size none)

theorem layDown_concat (size : Nat) (extents : List NumberedExtent) (extent : NumberedExtent) :
    layDown size (extents ++ [extent]) =
      fillRange (layDown size extents) extent.2 extent.1.1 (min extent.1.2 (size - 1)) := by
  unfold layDown
  rw [List.foldl_append]
  rfl

theorem size_layDown (size : Nat) (extents : List NumberedExtent) :
    (layDown size extents).size = size := by
  induction extents using List.reverseRecOn with
  | nil => exact Array.size_replicate
  | append_singleton extents extent ih => rw [layDown_concat, size_fillRange, ih]

/-- What was laid down last at a position stays there. -/
theorem join_layDown (hi : i < size) (extents : List NumberedExtent) :
    (layDown size extents)[i]?.join =
      (extents.reverse.find? fun extent => Covers extent.1 i).map (·.2) := by
  induction extents using List.reverseRecOn with
  | nil => simp [layDown, hi]
  | append_singleton extents extent ih =>
    have hcovers : Covers (extent.1.1, min extent.1.2 (size - 1)) i ↔ Covers extent.1 i := by
      unfold Covers
      dsimp only
      omega
    rw [layDown_concat, getElem?_fillRange (by rwa [size_layDown]), List.reverse_append,
      List.reverse_singleton, List.singleton_append, List.find?_cons]
    simp only [hcovers]
    by_cases hlast : Covers extent.1 i
    · rw [if_pos hlast, decide_eq_true hlast]
      rfl
    · rw [if_neg hlast, decide_eq_false hlast]
      exact ih

/-- Where extents are laid down in some order, the greatest of those around a position counts. -/
theorem join_layDown_iff {lt : NumberedExtent → NumberedExtent → Prop} (hi : i < size)
    {extents : List NumberedExtent} (hsorted : extents.Pairwise lt)
    (hasymm : ∀ a b, lt a b → ¬ lt b a) :
    (layDown size extents)[i]?.join = some k ↔
      ∃ extent, (extent, k) ∈ extents ∧ Covers extent i ∧
        ∀ other ∈ extents, Covers other.1 i → ¬ lt (extent, k) other := by
  rw [join_layDown hi, Option.map_eq_some_iff]
  constructor
  · rintro ⟨⟨extent, k⟩, hfind, rfl⟩
    obtain ⟨hcovers, before, after, hsplit, hbefore⟩ := List.find?_eq_some_iff_append.mp hfind
    have hsplit' : extents = after.reverse ++ (extent, k) :: before.reverse := by
      rw [← extents.reverse_reverse, hsplit]
      simp
    refine ⟨extent, by simp [hsplit'], by simpa using hcovers, fun other hother hin hlt => ?_⟩
    rw [hsplit', List.pairwise_append] at hsorted
    rw [hsplit'] at hother
    rcases List.mem_append.mp hother with hother | hother
    · exact hasymm _ _ hlt (hsorted.2.2 other hother _ List.mem_cons_self)
    · rcases List.mem_cons.mp hother with rfl | hother
      · exact hasymm _ _ hlt hlt
      · exact absurd hin (by simpa using hbefore other (List.mem_reverse.mp hother))
  · rintro ⟨extent, hmem, hcovers, hgreatest⟩
    obtain ⟨before, after, rfl⟩ := List.append_of_mem hmem
    refine ⟨(extent, k), ?_, rfl⟩
    rw [List.find?_eq_some_iff_append]
    refine ⟨decide_eq_true hcovers, after.reverse, before.reverse, by simp, fun other hother => ?_⟩
    have hother := List.mem_reverse.mp hother
    have hlt := (List.pairwise_cons.mp (List.pairwise_append.mp hsorted).2.1).1 other hother
    simpa using fun hin => hgreatest other (by simp [hother]) hin hlt

/-! ### The order of the starts -/

/-- Whether an extent starts no later than another one. -/
def startsBefore (a b : NumberedExtent) : Bool :=
  a.1.1 ≤ b.1.1

theorem startsBefore_trans (a b c : NumberedExtent) (hab : startsBefore a b)
    (hbc : startsBefore b c) : startsBefore a c :=
  decide_eq_true (le_trans (of_decide_eq_true hab) (of_decide_eq_true hbc))

theorem startsBefore_total (a b : NumberedExtent) : startsBefore a b || startsBefore b a := by
  simpa [startsBefore] using Nat.le_total a.1.1 b.1.1

/-- Sorting leaves the extents with one start as they are. -/
theorem filter_mergeSort_startsBefore (extents : List NumberedExtent) (start : Nat) :
    (extents.mergeSort startsBefore).filter (·.1.1 == start) =
      extents.filter (·.1.1 == start) := by
  have hequal : (extents.filter (·.1.1 == start)).Pairwise (startsBefore · ·) := by
    refine List.pairwise_of_forall_mem_list fun a ha b hb => ?_
    have ha := eq_of_beq (List.mem_filter.mp ha).2
    have hb := eq_of_beq (List.mem_filter.mp hb).2
    exact decide_eq_true (by rw [ha, hb])
  have hsub := (List.sublist_mergeSort startsBefore_trans startsBefore_total hequal
    List.filter_sublist).filter (·.1.1 == start)
  rw [List.filter_filter] at hsub
  simp only [Bool.and_self] at hsub
  exact (hsub.eq_of_length ((List.mergeSort_perm _ _).filter _).length_eq.symm).symm

/-- Extents in the order of their starts, those with one start as they came. -/
theorem pairwise_mergeSort_startsBefore (extents : List (Nat × Nat)) :
    (extents.zipIdx.mergeSort startsBefore).Pairwise
      fun a b => toLex (a.1.1, a.2) < toLex (b.1.1, b.2) := by
  have hnumbers : extents.zipIdx.Pairwise fun a b => a.2 < b.2 := by
    rw [← List.pairwise_map (f := Prod.snd) (R := (· < ·)), List.zipIdx_map_snd]
    exact List.pairwise_lt_range'
  have hstarts := List.pairwise_mergeSort startsBefore_trans startsBefore_total extents.zipIdx
  rw [List.pairwise_iff_forall_sublist] at hnumbers hstarts ⊢
  intro a b hab
  rw [Prod.Lex.toLex_lt_toLex]
  rcases (of_decide_eq_true (hstarts hab)).lt_or_eq with hlt | heq
  · exact Or.inl hlt
  · have hfilter := hab.filter (·.1.1 == a.1.1)
    rw [filter_mergeSort_startsBefore, List.filter_eq_self.mpr (by simp [heq])] at hfilter
    exact Or.inr ⟨heq, hnumbers (hfilter.trans List.filter_sublist)⟩

/-- The number of the extent that starts last among those around a position; of several that start
there it is the last. -/
def StartsLastAround (extents : List (Nat × Nat)) (i k : Nat) : Prop :=
  ∃ extent, extents[k]? = some extent ∧ Covers extent i ∧
    ∀ l other, extents[l]? = some other → Covers other i →
      toLex (other.1, l) ≤ toLex (extent.1, k)

theorem join_ownerTable_iff (hi : i < size) (extents : List (Nat × Nat)) :
    (ownerTable size extents)[i]?.join = some k ↔ StartsLastAround extents i k := by
  have htable : ownerTable size extents = layDown size (extents.zipIdx.mergeSort startsBefore) :=
    rfl
  rw [htable, join_layDown_iff hi (pairwise_mergeSort_startsBefore extents)
    fun _ _ hab hba => lt_asymm hab hba]
  simp only [List.mem_mergeSort, List.mk_mem_zipIdx_iff_getElem?, Prod.forall, not_lt]
  constructor
  · rintro ⟨extent, hk, hin, hlast⟩
    exact ⟨extent, hk, hin, fun l other => hlast other.1 other.2 l⟩
  · rintro ⟨extent, hk, hin, hlast⟩
    exact ⟨extent, hk, hin, fun first last l => hlast l (first, last)⟩

theorem size_ownerTable (size : Nat) (extents : List (Nat × Nat)) :
    (ownerTable size extents).size = size :=
  size_layDown size _

/-- Nothing is around a position of which the table says nothing. -/
theorem join_ownerTable_eq_none_iff (hi : i < size) (extents : List (Nat × Nat)) :
    (ownerTable size extents)[i]?.join = none ↔ ∀ extent ∈ extents, ¬ Covers extent i := by
  have htable : ownerTable size extents = layDown size (extents.zipIdx.mergeSort startsBefore) :=
    rfl
  rw [htable, join_layDown hi, Option.map_eq_none_iff, List.find?_eq_none]
  simp only [List.mem_reverse, List.mem_mergeSort, decide_eq_true_eq]
  constructor
  · intro h extent hextent
    obtain ⟨k, hk⟩ := List.mem_iff_getElem?.mp hextent
    exact h (extent, k) (List.mk_mem_zipIdx_iff_getElem?.mpr hk)
  · rintro h ⟨extent, k⟩ hmem
    exact h extent (List.mem_of_getElem? (List.mk_mem_zipIdx_iff_getElem?.mp hmem))

/-! ### Entities -/

section Entities

variable {α : Type} {entities : Array α} {a : α}

/-- An entity that starts last among those around a token; of several that start there it is the
last. -/
def StartsLast (start : α → Nat) (contains : α → Nat → Bool) (entities : Array α) (i : Nat)
    (a : α) : Prop :=
  ∃ k : Nat, entities[k]? = some a ∧ contains a i ∧
    ∀ (l : Nat) (b : α), entities[l]? = some b → contains b i →
      toLex (start b, l) ≤ toLex (start a, k)

variable {start last : α → Nat} {contains : α → Nat → Bool}

/-- What a table of entities says about a token. -/
theorem owner_eq_some_iff (hcontains : ∀ a, contains a i ↔ Covers (start a, last a) i)
    (hi : i < size) :
    (ownerTable size (entities.toList.map fun a => (start a, last a)))[i]?.join.bind
      (entities[·]?) = some a ↔ StartsLast start contains entities i a := by
  have hget {k : Nat} {e : Nat × Nat} :
      (entities.toList.map fun a => (start a, last a))[k]? = some e ↔
        ∃ a, entities[k]? = some a ∧ (start a, last a) = e := by
    rw [List.getElem?_map, Array.getElem?_toList, Option.map_eq_some_iff]
  unfold StartsLast
  rw [Option.bind_eq_some_iff]
  refine exists_congr fun k => ?_
  rw [join_ownerTable_iff hi, hcontains]
  constructor
  · rintro ⟨⟨e, he, hin, hlast⟩, ha⟩
    obtain ⟨a', ha', rfl⟩ := hget.mp he
    obtain rfl : a = a' := Option.some.inj (ha.symm.trans ha')
    exact ⟨ha, hin, fun l b hb hbi => hlast l _ (hget.mpr ⟨b, hb, rfl⟩) ((hcontains b).mp hbi)⟩
  · rintro ⟨ha, hin, hlast⟩
    refine ⟨⟨_, hget.mpr ⟨a, ha, rfl⟩, hin, fun l other hother hin' => ?_⟩, ha⟩
    obtain ⟨b, hb, rfl⟩ := hget.mp hother
    exact hlast l b hb ((hcontains b).mpr hin')

/-- A table of entities says nothing about a token outside all of them. -/
theorem owner_eq_none_iff (hcontains : ∀ a, contains a i ↔ Covers (start a, last a) i)
    (hi : i < size) :
    (ownerTable size (entities.toList.map fun a => (start a, last a)))[i]?.join.bind
      (entities[·]?) = none ↔ ∀ a ∈ entities, ¬ contains a i := by
  have hnone := join_ownerTable_eq_none_iff hi (entities.toList.map fun a => (start a, last a))
  simp only [List.forall_mem_map, Array.mem_toList_iff, ← hcontains] at hnone
  rw [← hnone]
  constructor
  · intro h
    cases hk : (ownerTable size (entities.toList.map fun a => (start a, last a)))[i]?.join with
    | none => rfl
    | some k =>
      obtain ⟨e, he, _⟩ := (join_ownerTable_iff hi _).mp hk
      rw [List.getElem?_map, Array.getElem?_toList, Option.map_eq_some_iff] at he
      obtain ⟨a, ha, _⟩ := he
      rw [hk, Option.bind_some, ha] at h
      contradiction
  · intro h
    rw [h, Option.bind_none]

end Entities

/-! ### Extents that come in their order -/

/-- A table with extents laid down as they come. -/
def layers (size : Nat) (extents : List (Nat × Nat)) : Array (Option Nat) :=
  extents.zipIdx.foldl
    (fun table ((first, last), id) => fillRange table id first (min last (size - 1)))
    (Array.replicate size none)

/-- Extents in the order of their starts are laid down as they come. -/
theorem ownerTable_eq_layers {extents : List (Nat × Nat)}
    (h : extents.Pairwise fun a b => a.1 < b.1)
    (size : Nat) : ownerTable size extents = layers size extents := by
  have hfirst : (extents.zipIdx.map Prod.fst).Pairwise fun a b => a.1 < b.1 := by
    rwa [List.zipIdx_map_fst]
  have hsorted : (extents.zipIdx.mergeSort fun a b => a.1.1 ≤ b.1.1) = extents.zipIdx :=
    List.mergeSort_of_pairwise
      ((List.pairwise_map.mp hfirst).imp fun h => decide_eq_true (Nat.le_of_lt h))
  unfold ownerTable layers
  dsimp only
  rw [hsorted]

/-! ### Functions -/

theorem Function.contains_iff {f : Function} : f.contains i ↔ Covers (f.index, f.bodyEnds) i := by
  simp [Function.contains, Covers]

theorem Class.contains_iff {c : Class} : c.contains i ↔ Covers (c.index, c.bodyEnds) i := by
  simp [Class.contains, Covers]

namespace SourceFile

open Outline

variable {file : SourceFile} {f g : Function} {name : String} {content : ByteArray}

theorem functionAt_eq_some_iff_startsLast (htable : file.functionOwner =
      ownerTable file.tokens.size (file.functions.toList.map fun f => (f.index, f.bodyEnds)))
    (hi : i < file.tokens.size) : file.functionAt i = some f ↔
      StartsLast Function.index Function.contains file.functions i f := by
  unfold functionAt
  rw [htable]
  exact owner_eq_some_iff (fun _ => Function.contains_iff) hi

theorem mem_of_functionAt (h : file.functionAt i = some f) : f ∈ file.functions := by
  obtain ⟨id, _, hf⟩ := Option.bind_eq_some_iff.mp h
  exact Array.mem_of_getElem? hf

/-- Functions stand in the order of their keywords. -/
theorem functions_rise (h : parse name content = .ok file) (hik : i < k)
    (hf : file.functions[i]? = some f) (hg : file.functions[k]? = some g) : f.index < g.index := by
  obtain ⟨ts, found, _, ha, rfl⟩ := parse_eq_ok h
  rw [getElem?_functions, Option.map_eq_some_iff] at hf hg
  obtain ⟨f', hf', rfl⟩ := hf
  obtain ⟨g', hg', rfl⟩ := hg
  have hhead := (Pass.reaches_final ts).functions_rise ha i k f' g' hik hf' hg'
  exact Nat.lt_of_lt_of_le (functionFits_of_final ha hf').headEnd.1 hhead

theorem tokens_indexed (h : parse name content = .ok file) :
    Bracket.Indexed file.tokens.toList := by
  obtain ⟨ts, found, _, ha, rfl⟩ := parse_eq_ok h
  exact ha.indexed

theorem functions_fit (h : parse name content = .ok file) :
    ∀ f ∈ file.functions, FunctionFits file.tokens.size f := by
  obtain ⟨ts, found, _, ha, rfl⟩ := parse_eq_ok h
  exact functionFits_ofFinal ha

/-- A function is known by its keyword. -/
theorem eq_of_index_eq (h : parse name content = .ok file) (hf : f ∈ file.functions)
    (hg : g ∈ file.functions) (heq : f.index = g.index) : f = g := by
  obtain ⟨i, hi⟩ := Array.mem_iff_getElem?.mp hf
  obtain ⟨k, hk⟩ := Array.mem_iff_getElem?.mp hg
  rcases Nat.lt_trichotomy i k with hlt | rfl | hlt
  · have := functions_rise h hlt hi hk
    omega
  · rwa [hi, Option.some.injEq] at hk
  · have := functions_rise h hlt hk hi
    omega

/-- A function around a token, with none around the token that starts behind it. -/
structure IsInnermost (file : SourceFile) (f : Function) (i : Nat) : Prop where
  mem : f ∈ file.functions
  contains : f.contains i
  inner : ∀ g ∈ file.functions, f.index < g.index → ¬ g.contains i

theorem functionOwner_eq_layers (h : parse name content = .ok file) : file.functionOwner =
    layers file.tokens.size (file.functions.toList.map fun f => (f.index, f.bodyEnds)) := by
  have hextents : (file.functions.toList.map fun f => (f.index, f.bodyEnds)).Pairwise
      fun a b => a.1 < b.1 := by
    refine List.pairwise_map.mpr (List.pairwise_iff_getElem.mpr fun k l hk hl hkl => ?_)
    exact functions_rise h hkl (by simp) (by simp)
  rw [← ownerTable_eq_layers hextents]
  obtain ⟨ts, found, _, ha, rfl⟩ := parse_eq_ok h
  rfl

/-- What the table of functions says about a token. -/
theorem functionAt_eq_some_iff (h : parse name content = .ok file) :
    file.functionAt i = some f ↔ file.IsInnermost f i := by
  have htable : file.functionOwner = ownerTable file.tokens.size
      (file.functions.toList.map fun f => (f.index, f.bodyEnds)) := by
    obtain ⟨ts, found, _, ha, rfl⟩ := parse_eq_ok h
    rfl
  by_cases hi : i < file.tokens.size
  · rw [functionAt_eq_some_iff_startsLast htable hi]
    constructor
    · rintro ⟨k, hk, hin, hlast⟩
      refine ⟨Array.mem_of_getElem? hk, hin, fun g hg hlt hgi => ?_⟩
      obtain ⟨l, hl⟩ := Array.mem_iff_getElem?.mp hg
      have hle := Prod.Lex.toLex_le_toLex.mp (hlast l g hl hgi)
      omega
    · rintro ⟨hmem, hin, hinner⟩
      obtain ⟨k, hk⟩ := Array.mem_iff_getElem?.mp hmem
      refine ⟨k, hk, hin, fun l g hl hgi => Prod.Lex.toLex_le_toLex.mpr ?_⟩
      rcases Nat.lt_trichotomy l k with hlk | rfl | hkl
      · exact Or.inl (functions_rise h hlk hl hk)
      · exact Or.inr ⟨by rw [Option.some.inj (hl.symm.trans hk)], le_rfl⟩
      · exact absurd hgi (hinner g (Array.mem_of_getElem? hl) (functions_rise h hkl hk hl))
  · refine iff_of_false (fun hf => ?_) fun hf => ?_
    · unfold functionAt at hf
      rw [htable, Array.getElem?_eq_none (by rwa [size_ownerTable, ← Nat.not_lt])] at hf
      contradiction
    · have hsize := (functions_fit h f hf.mem).size
      have hends := (Function.contains_iff.mp hf.contains).2
      dsimp only at hends
      omega

/-- A token of a function has an innermost function. -/
theorem exists_isInnermost {f : Function} (hf : f ∈ file.functions) (hi : f.contains i) :
    ∃ g, file.IsInnermost g i ∧ f.index ≤ g.index := by
  by_cases hinner : ∃ g ∈ file.functions, f.index < g.index ∧ g.contains i
  · obtain ⟨g, hg, hlt, hgi⟩ := hinner
    have hcovers := Function.contains_iff.mp hgi
    obtain ⟨last, hlast, hle⟩ := exists_isInnermost hg hgi
    exact ⟨last, hlast, Nat.le_trans (Nat.le_of_lt hlt) hle⟩
  · exact ⟨f, ⟨hf, hi, fun g hg hlt hgi => hinner ⟨g, hg, hlt, hgi⟩⟩, Nat.le_refl _⟩
termination_by i - f.index
decreasing_by
  have : g.index ≤ i := hcovers.1
  omega

/-! ### Files with any extents -/

/--
Around each token of a file the tables find the class and the function that start last, and the
last ones of those that start together; they find none only where none is around the token. The
extents may end or start behind the file, and they need not be nested.
-/
theorem owners_startLast (name : String) (tokens : List Token) (outline : Outline)
    (hi : i < tokens.length) :
    ((∀ f, (ofOutline name tokens outline).functionAt i = some f ↔
        StartsLast Function.index Function.contains outline.functions i f) ∧
      ((ofOutline name tokens outline).functionAt i = none ↔
        ∀ f ∈ outline.functions, ¬ f.contains i)) ∧
    (∀ c, (ofOutline name tokens outline).classAt i = some c ↔
        StartsLast Class.index Class.contains outline.classes i c) ∧
      ((ofOutline name tokens outline).classAt i = none ↔
        ∀ c ∈ outline.classes, ¬ c.contains i) :=
  ⟨⟨fun _ => owner_eq_some_iff (fun _ => Function.contains_iff) hi,
      owner_eq_none_iff (fun _ => Function.contains_iff) hi⟩,
    fun _ => owner_eq_some_iff (fun _ => Class.contains_iff) hi,
    owner_eq_none_iff (fun _ => Class.contains_iff) hi⟩

/-- Of three functions around a token two start with it, the first of which ends behind the file. -/
theorem owners_startLast_equal_starts :
    let tokens : List Token := List.replicate 4 default
    let extent (first last : Nat) : Function :=
      { (default : Function) with index := first, bodyEnds := last }
    let outline : Outline :=
      { Outline.empty with functions := #[extent 1 9, extent 0 1, extent 1 2, extent 7 8] }
    1 < tokens.length ∧ (ofOutline "a.php" tokens outline).functionAt 1 = some (extent 1 2) ∧
      (ofOutline "a.php" tokens outline).classAt 1 = none := by
  intro tokens extent outline
  have hi : 1 < tokens.length := by decide
  obtain ⟨⟨hfunction, _⟩, _, hnone⟩ := owners_startLast "a.php" tokens outline hi
  refine ⟨hi, (hfunction _).mpr ⟨2, rfl, rfl, fun l g hl hin => ?_⟩, hnone.mpr (by decide)⟩
  have hlt : l < 4 := (Array.getElem?_eq_some_iff.mp hl).1
  interval_cases l <;> cases hl <;> revert hin <;> decide

end SourceFile

end PhpLint
