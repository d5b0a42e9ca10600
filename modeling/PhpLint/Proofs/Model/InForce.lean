import PhpLint.Proofs.Model.State

/-!
The namespace in force at a token. During the pass it is the last record so far; afterwards it is
the last record that does not start behind the token. They have the same name.
-/
namespace PhpLint.Outline

/-! ### Records by position and name -/

/-- Where records start, and the names that they have. -/
def marks (records : List Namespace) : List (Nat × String) :=
  records.map fun ns => (ns.index, ns.name)

/-- The last record that does not start behind token `i`. -/
def markAt (l : List (Nat × String)) (i : Nat) : Option (Nat × String) :=
  (l.filter (·.1 ≤ i)).getLast?

/-- The name of the last record that does not start behind token `i`. -/
def inForce (l : List (Nat × String)) (i : Nat) : String :=
  ((l.filter (·.1 ≤ i)).getLast?.map (·.2)).getD ""

/-- Records in rising order from the first token on, none of which starts behind token `i`. -/
structure InOrder (l : List (Nat × String)) (i : Nat) : Prop where
  first : l.head?.map (·.1) = some 0
  rising : l.Pairwise (·.1 < ·.1)
  le : ∀ m ∈ l, m.1 ≤ i

variable {l : List (Nat × String)} {records : List Namespace} {i j : Nat} {name : String}

theorem InOrder.mono (h : InOrder l i) (hij : i ≤ j) : InOrder l j :=
  ⟨h.first, h.rising, fun m hm => Nat.le_trans (h.le m hm) hij⟩

theorem InOrder.ne_nil (h : InOrder l i) : l ≠ [] := by
  rintro rfl
  exact absurd h.first nofun

/-- One more record starts behind all others. -/
theorem InOrder.append (h : InOrder l i) (hij : i < j) : InOrder (l ++ [(j, name)]) j where
  first := by
    cases l with
    | nil => exact absurd rfl h.ne_nil
    | cons m l => exact h.first
  rising := by
    refine List.pairwise_append.mpr ⟨h.rising, List.pairwise_singleton _ _, ?_⟩
    intro m hm m' hm'
    rw [List.mem_singleton.mp hm']
    exact Nat.lt_of_le_of_lt (h.le m hm) hij
  le := by
    intro m hm
    rcases List.mem_append.mp hm with hm | hm
    · exact Nat.le_of_lt (Nat.lt_of_le_of_lt (h.le m hm) hij)
    · rw [List.mem_singleton.mp hm]

/-- A record takes the place of one that starts at the same token. -/
theorem InOrder.replace (h : InOrder l i) :
    InOrder (l.filter (·.1 < i) ++ [(i, name)]) i where
  first := by
    cases l with
    | nil => exact absurd rfl h.ne_nil
    | cons m l =>
      have hm : m.1 = 0 := Option.some.inj h.first
      by_cases hi : i = 0
      · have hnone : (m :: l).filter (·.1 < i) = [] := by simp [hi]
        rw [hnone, hi]
        rfl
      · rw [List.filter_cons_of_pos (by simp only [hm, decide_eq_true_eq]; omega)]
        exact h.first
  rising := by
    refine List.pairwise_append.mpr ⟨h.rising.sublist List.filter_sublist,
      List.pairwise_singleton _ _, ?_⟩
    intro m hm m' hm'
    rw [List.mem_singleton.mp hm']
    simpa using (List.mem_filter.mp hm).2
  le := by
    intro m hm
    rcases List.mem_append.mp hm with hm | hm
    · exact h.le m (List.mem_filter.mp hm).1
    · rw [List.mem_singleton.mp hm]

theorem inForce_eq (l : List (Nat × String)) (i : Nat) :
    inForce l i = ((markAt l i).map (·.2)).getD "" :=
  rfl

/-- Records that start behind a token make no difference for it. -/
theorem markAt_append (hij : i < j) : markAt (l ++ [(j, name)]) i = markAt l i := by
  unfold markAt
  rw [List.filter_append, List.filter_cons_of_neg (by simp only [decide_eq_true_eq]; omega),
    List.filter_nil, List.append_nil]

theorem markAt_filter {keep : Nat × String → Bool} (hkeep : ∀ m ∈ l, m.1 ≤ i → keep m) :
    markAt (l.filter keep) i = markAt l i := by
  unfold markAt
  rw [List.filter_filter]
  congr 1
  apply List.filter_congr
  intro m hm
  by_cases hle : m.1 ≤ i <;> simp [hle, hkeep m hm]

/-- The last record is in force behind all others. -/
theorem InOrder.markAt_eq (h : InOrder l i) : markAt l i = l.getLast? := by
  unfold markAt
  rw [List.filter_eq_self.mpr fun m hm => by simpa using h.le m hm]

theorem InOrder.inForce_eq (h : InOrder l i) : inForce l i = (l.getLast?.map (·.2)).getD "" := by
  rw [Outline.inForce_eq, h.markAt_eq]

/-- Of records in order those that do not start behind a token come first. -/
theorem takeWhile_eq_filter (h : records.Pairwise (·.index < ·.index)) (i : Nat) :
    records.takeWhile (·.index ≤ i) = records.filter (·.index ≤ i) := by
  induction records with
  | nil => rfl
  | cons ns records ih =>
    obtain ⟨hns, hrest⟩ := List.pairwise_cons.mp h
    by_cases hle : ns.index ≤ i
    · rw [List.takeWhile_cons_of_pos (by simpa using hle), ih hrest,
        List.filter_cons_of_pos (by simpa using hle)]
    · rw [List.takeWhile_cons_of_neg (by simpa using hle),
        List.filter_cons_of_neg (by simpa using hle), eq_comm, List.filter_eq_nil_iff]
      intro ns' hns'
      have := hns ns' hns'
      simp only [decide_eq_true_eq]
      omega

/-- The record that is found for a token is the one in force there. -/
theorem markAt_marks (h : InOrder (marks records) j) (i : Nat) :
    markAt (marks records) i =
      some ((namespaceAt records i).index, (namespaceAt records i).name) := by
  have hrising : records.Pairwise (·.index < ·.index) := by
    have hrising := h.rising
    rwa [marks, List.pairwise_map] at hrising
  have hfilter : (marks records).filter (·.1 ≤ i) = marks (records.filter (·.index ≤ i)) := by
    unfold marks
    rw [List.filter_map]
    rfl
  unfold markAt namespaceAt
  rw [takeWhile_eq_filter hrising, hfilter, marks, List.getLast?_map]
  cases hlast : (records.filter (·.index ≤ i)).getLast? with
  | some ns => rfl
  | none =>
    -- the first record starts with the file, so there is one
    cases records with
    | nil => exact absurd rfl h.ne_nil
    | cons ns records =>
      have hns : ns.index = 0 := Option.some.inj h.first
      rw [List.getLast?_eq_none_iff, List.filter_eq_nil_iff] at hlast
      exact absurd (Nat.zero_le i) (by simpa [hns] using hlast ns List.mem_cons_self)

theorem name_namespaceAt (h : InOrder (marks records) j) (i : Nat) :
    (namespaceAt records i).name = inForce (marks records) i := by
  rw [inForce_eq, markAt_marks h]
  rfl

/-! ### Arrays of records -/

theorem marks_modify (xs : Array Namespace) (k : Nat) {f : Namespace → Namespace}
    (hindex : ∀ ns, (f ns).index = ns.index) (hname : ∀ ns, (f ns).name = ns.name) :
    marks (xs.modify k f).toList = marks xs.toList := by
  apply List.ext_getElem?
  intro n
  unfold marks
  rw [List.getElem?_map, List.getElem?_map, Array.getElem?_toList, Array.getElem?_toList,
    Array.getElem?_modify]
  split
  · cases xs[n]? with
    | none => rfl
    | some ns => simp [hindex, hname]
  · rfl

theorem marks_push (xs : Array Namespace) (ns : Namespace) :
    marks (xs.push ns).toList = marks xs.toList ++ [(ns.index, ns.name)] := by
  rw [Array.toList_push]
  exact List.map_append

theorem InOrder.exists_push {xs : Array Namespace} (h : InOrder (marks xs.toList) i) :
    ∃ (records : Array Namespace) (last : Namespace), xs = records.push last := by
  cases hback : xs.back? with
  | none =>
    rw [Array.back?_eq_none_iff.mp hback] at h
    exact absurd rfl h.ne_nil
  | some last =>
    obtain ⟨records, heq⟩ := Array.back?_eq_some_iff.mp hback
    exact ⟨records, last, heq⟩

/-! ### During the pass -/

namespace Pass

variable {p p' : Pass} {size : Nat} {before after s : List Lexeme} {x : Lexeme}

/-- A new namespace ends the last record, or drops it if it holds nothing. -/
theorem endNamespace_of_push {records : Array Namespace} {last : Namespace}
    (h : p.namespaces = records.push last) (i : Nat) : (p.endNamespace i).namespaces =
      if i ≤ last.index then records else records.push { last with bodyEnds := some (i - 1) } := by
  unfold Pass.endNamespace
  rw [h, Array.back?_push]
  dsimp only
  rw [Array.pop_push]
  split <;> rfl

/-- Before a new namespace the records that start earlier are left. -/
theorem marks_endNamespace (h : InOrder (marks p.namespaces.toList) i) :
    marks (p.endNamespace i).namespaces.toList =
      (marks p.namespaces.toList).filter (·.1 < i) := by
  obtain ⟨records, last, hrecords⟩ := h.exists_push
  rw [hrecords, marks_push] at h ⊢
  obtain ⟨_, _, hlast⟩ := List.pairwise_append.mp h.rising
  have hle : last.index ≤ i := h.le _ (List.mem_append_right _ (List.mem_singleton_self _))
  have hkept : (marks records.toList).filter (·.1 < i) = marks records.toList := by
    refine List.filter_eq_self.mpr fun m hm => ?_
    have := hlast m hm _ (List.mem_singleton_self _)
    simp only [decide_eq_true_eq]
    omega
  rw [endNamespace_of_push hrecords, List.filter_append, hkept]
  split
  · rename_i hge
    rw [List.filter_cons_of_neg (by simpa using hge), List.filter_nil, List.append_nil]
  · rename_i hlt
    rw [List.filter_cons_of_pos (by simpa using hlt), List.filter_nil, marks_push]

/-- How a step changes where records start and what they are called. -/
theorem Spaces.marks_cases (h : p.Spaces size before x after p')
    (horder : InOrder (marks p.namespaces.toList) x.index) :
    marks p'.namespaces.toList = marks p.namespaces.toList ∨
    (marks p'.namespaces.toList = marks p.namespaces.toList ++ [(x.index + 1, "")]) ∨
    ∃ name, marks p'.namespaces.toList =
      (marks p.namespaces.toList).filter (·.1 < x.index) ++ [(x.index, name)] := by
  cases h with
  | same hnamespaces => exact Or.inl (by rw [hnamespaces])
  | ends _ _ hnamespaces =>
    refine Or.inr (Or.inl ?_)
    rw [hnamespaces, marks_push]
    exact congrArg (· ++ _) (marks_modify p.namespaces _ (fun _ => rfl) fun _ => rfl)
  | imports _ hnamespaces =>
    refine Or.inl ?_
    rw [hnamespaces]
    exact marks_modify p.namespaces _ (fun _ => rfl) fun _ => rfl
  | @declared name y _ _ hnamespaces =>
    refine Or.inr (Or.inr ⟨(namespaceRecord size x.index name y).name, ?_⟩)
    rw [hnamespaces, marks_push, marks_endNamespace horder]
    rfl

theorem Spaces.inOrder (h : p.Spaces size before x after p')
    (horder : InOrder (marks p.namespaces.toList) x.index) :
    InOrder (marks p'.namespaces.toList) (x.index + 1) := by
  rcases h.marks_cases horder with heq | heq | ⟨name, heq⟩
  · rw [heq]
    exact horder.mono (Nat.le_succ _)
  · rw [heq]
    exact horder.append (Nat.lt_succ_self _)
  · rw [heq]
    exact horder.replace.mono (Nat.le_succ _)

/-- A step leaves the record in force at earlier tokens as it is. -/
theorem Spaces.markAt_eq (h : p.Spaces size before x after p')
    (horder : InOrder (marks p.namespaces.toList) x.index) (hi : i < x.index) :
    markAt (marks p'.namespaces.toList) i = markAt (marks p.namespaces.toList) i := by
  rcases h.marks_cases horder with heq | heq | ⟨name, heq⟩
  · rw [heq]
  · rw [heq]
    exact markAt_append (by omega)
  · rw [heq, markAt_append hi]
    refine markAt_filter fun m _ hm => ?_
    simp only [decide_eq_true_eq]
    omega

theorem Spaces.inForce_eq (h : p.Spaces size before x after p')
    (horder : InOrder (marks p.namespaces.toList) x.index) (hi : i < x.index) :
    inForce (marks p'.namespaces.toList) i = inForce (marks p.namespaces.toList) i := by
  rw [Outline.inForce_eq, Outline.inForce_eq, h.markAt_eq horder hi]

/-- The namespace in force at a token is the one of the last record. -/
theorem namespaceName_eq (horder : InOrder (marks p.namespaces.toList) i) :
    p.namespaceName = inForce (marks p.namespaces.toList) i := by
  rw [horder.inForce_eq, marks, List.getLast?_map, Option.map_map, Array.getLast?_toList]
  rfl

variable {ts : List Token} {found : List (Nat × Nat)}

theorem Reaches.inOrder (h : Reaches ts before p) (ha : Accepted ts found) :
    InOrder (marks p.namespaces.toList) (reach before) := by
  induction h with
  | start =>
    refine ⟨rfl, List.pairwise_singleton _ _, ?_⟩
    intro m hm
    rw [List.mem_singleton.mp hm]
    exact Nat.le_refl _
  | @step p before after x h hsplit ih =>
    have hx := ((ha.between hsplit).between x List.mem_cons_self).1
    exact (step_cases p ts.length before x after).spaces.inOrder (ih.mono hx)

/-- The record in force at a token that was passed stays in force there. -/
theorem Reaches.markAt_final (h : Reaches ts before p) (ha : Accepted ts found)
    (hsplit : Lexeme.ofTokens false ts = before.reverse ++ s) (hi : i < reach before) :
    markAt (marks (final ts).namespaces.toList) i = markAt (marks p.namespaces.toList) i := by
  refine h.final_of_keeps (I := fun _ q => markAt (marks q.namespaces.toList) i =
    markAt (marks p.namespaces.toList) i) hsplit rfl ?_
  intro b q x hmem r hq hs heq
  have hx := ((ha.between hs).between x List.mem_cons_self).1
  have hle := ((ha.between hsplit).between x hmem).1
  have hspaces := (step_cases q ts.length b x r).spaces
  rw [hspaces.markAt_eq ((hq.inOrder ha).mono hx) (by omega), heq]

/-- At a token that declares no namespace the record in force is the last one so far. -/
theorem Reaches.markAt_index (h : Reaches ts before p) (ha : Accepted ts found)
    (hsplit : Lexeme.ofTokens false ts = before.reverse ++ x :: after)
    (hkey : ¬ x.isKeyword "namespace") : markAt (marks (final ts).namespaces.toList) x.index =
      (marks p.namespaces.toList).getLast? := by
  have hsplit' : Lexeme.ofTokens false ts = (x :: before).reverse ++ after := by rw [hsplit]; simp
  have hx := ((ha.between hsplit).between x List.mem_cons_self).1
  have horder := (h.inOrder ha).mono hx
  rw [(h.step hsplit).markAt_final ha hsplit' (Nat.lt_succ_self _), ← horder.markAt_eq]
  cases (step_cases p ts.length before x after).spaces with
  | same hnamespaces => rw [hnamespaces]
  | ends _ _ hnamespaces =>
    rw [hnamespaces, marks_push]
    refine (markAt_append (Nat.lt_succ_self _)).trans ?_
    exact congrArg (markAt · x.index) (marks_modify p.namespaces _ (fun _ => rfl) fun _ => rfl)
  | imports _ hnamespaces =>
    rw [hnamespaces]
    exact congrArg (markAt · x.index) (marks_modify p.namespaces _ (fun _ => rfl) fun _ => rfl)
  | declared hkey' => exact absurd hkey' hkey

/-! ### Behind the pass -/

/-- Every record that has an end does not end before it starts. -/
theorem Reaches.ends (h : Reaches ts before p) (ha : Accepted ts found) :
    ∀ ns ∈ p.namespaces, ∀ e, ns.bodyEnds = some e → ns.index ≤ e := by
  induction h with
  | start =>
    intro ns hns e he
    simp only [Pass.start, Array.mem_singleton] at hns
    rw [hns] at he
    contradiction
  | @step p before after x h hsplit ih =>
    have horder := h.inOrder ha
    have hx := (ha.between hsplit).between x List.mem_cons_self
    have hle (ns : Namespace) (hns : ns ∈ p.namespaces) : ns.index ≤ x.index :=
      Nat.le_trans (horder.le (ns.index, ns.name)
        (List.mem_map_of_mem (Array.mem_toList_iff.mpr hns))) hx.1
    cases (step_cases p ts.length before x after).spaces with
    | same hnamespaces => rwa [hnamespaces]
    | @ends record _ _ _ hnamespaces =>
      rw [hnamespaces]
      refine forall_push (forall_modify ih record fun ns hns _ e he => ?_) ?_
      · rw [← Option.some.inj he]
        exact hle ns (Array.mem_of_getElem? hns)
      · intro e he
        contradiction
    | imports _ hnamespaces =>
      rw [hnamespaces]
      exact forall_modify ih _ fun ns hns hends => hends
    | @declared name y _ _ hnamespaces =>
      obtain ⟨records, last, hrecords⟩ := horder.exists_push
      rw [hrecords] at ih
      have hearlier (ns : Namespace) (hns : ns ∈ records) := ih ns (Array.mem_push_of_mem last hns)
      rw [hnamespaces, endNamespace_of_push hrecords]
      refine forall_push ?_ ?_
      · split
        · exact hearlier
        · refine forall_push hearlier ?_
          intro e he
          have he : x.index - 1 = e := Option.some.inj he
          dsimp only
          omega
      · intro e he
        have he : ts.length - 1 = e := Option.some.inj he
        change x.index ≤ e
        omega

end Pass

end PhpLint.Outline
