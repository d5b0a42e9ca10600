import PhpLint.Document.Link
import PhpLint.Proofs.Dict

/-!
The ends of linked ranges. At every token as many ranges are open as were recorded around it, and a
range is never closed before one has been opened.
-/
namespace PhpLint

def SourceLink.isOpening : SourceLink → Bool
  | .opens _ _ => true
  | .closes => false

namespace Boundaries

variable {b : Boundaries} {ranges : List LinkedRange} {link : SourceLink} {position i : Nat}
  {p : SourceLink → Bool}

/-- The ends of ranges at some tokens, in order. -/
def within (q : Nat → Bool) (b : Boundaries) : List SourceLink :=
  (b.filter (q ·.1)).flatMap (·.2)

/-- All ends of ranges, in order. -/
def flatten (b : Boundaries) : List SourceLink :=
  b.flatMap (·.2)

/-- The tokens rise, so that each comes once. -/
def Rising (b : Boundaries) : Prop :=
  b.Pairwise (·.1 < ·.1)

/-! ### One end -/

theorem mem_add {entry : Nat × List SourceLink} (h : entry ∈ add position link b) :
    entry.1 = position ∨ ∃ old ∈ b, old.1 = entry.1 := by
  induction b with
  | nil =>
    rw [add, List.mem_singleton] at h
    exact .inl (by rw [h])
  | cons first b ih =>
    obtain ⟨j, links⟩ := first
    rw [add] at h
    split_ifs at h with heq hlt
    · rcases List.mem_cons.mp h with rfl | h
      · exact .inr ⟨(j, links), List.mem_cons_self, rfl⟩
      · exact .inr ⟨entry, List.mem_cons_of_mem _ h, rfl⟩
    · rcases List.mem_cons.mp h with rfl | h
      · exact .inl rfl
      · exact .inr ⟨entry, h, rfl⟩
    · rcases List.mem_cons.mp h with rfl | h
      · exact .inr ⟨(j, links), List.mem_cons_self, rfl⟩
      · obtain hnew | ⟨old, hold, heq⟩ := ih h
        · exact .inl hnew
        · exact .inr ⟨old, List.mem_cons_of_mem _ hold, heq⟩

theorem Rising.add (h : Rising b) (position : Nat) (link : SourceLink) :
    Rising (add position link b) := by
  induction b with
  | nil => exact List.pairwise_singleton _ _
  | cons first b ih =>
    obtain ⟨j, links⟩ := first
    obtain ⟨hfirst, hrest⟩ := List.pairwise_cons.mp h
    rw [Boundaries.add]
    split_ifs with heq hlt
    · exact List.pairwise_cons.mpr ⟨hfirst, hrest⟩
    · refine List.pairwise_cons.mpr ⟨?_, h⟩
      intro entry hentry
      rcases List.mem_cons.mp hentry with rfl | hentry
      · exact hlt
      · exact hlt.trans (hfirst entry hentry)
    · refine List.pairwise_cons.mpr ⟨?_, ih hrest⟩
      intro entry hentry
      rcases mem_add hentry with hnew | ⟨old, hold, hsame⟩
      · have hne : position ≠ j := by simpa using heq
        change j < entry.1
        omega
      · exact hsame ▸ hfirst old hold

theorem countP_within_cons (q : Nat → Bool) (p : SourceLink → Bool) (j : Nat)
    (links : List SourceLink) (b : Boundaries) : (within q ((j, links) :: b)).countP p =
      (if q j then links.countP p else 0) + (within q b).countP p := by
  unfold within
  by_cases hj : q j = true
  · simp [hj]
  · simp [hj]

/-- An end counts at its own token and at no other. -/
theorem countP_within_add (q : Nat → Bool) (p : SourceLink → Bool) (b : Boundaries) :
    (within q (add position link b)).countP p =
      (within q b).countP p + if q position && p link then 1 else 0 := by
  fun_induction add position link b with
  | case1 =>
    rw [countP_within_cons, List.countP_singleton]
    simp only [Bool.and_eq_true, ite_and]
    exact Nat.add_comm _ _
  | case2 j links b heq =>
    obtain rfl : position = j := by simpa using heq
    rw [countP_within_cons, countP_within_cons, List.countP_append, List.countP_singleton]
    by_cases hq : q position = true
    · simp only [hq, if_true, Bool.true_and]
      omega
    · simp [hq]
  | case3 j links b heq hlt =>
    rw [countP_within_cons, List.countP_singleton]
    simp only [Bool.and_eq_true, ite_and]
    exact Nat.add_comm _ _
  | case4 j links b heq hlt ih =>
    rw [countP_within_cons, countP_within_cons, ih]
    omega

/-! ### All ranges of a file -/

/-- The ends of ranges that are recorded one after the other. -/
def ofRanges (ranges : List LinkedRange) : Boundaries :=
  ranges.foldl addRange []

theorem ofRanges_concat (ranges : List LinkedRange) (range : LinkedRange) :
    ofRanges (ranges ++ [range]) = (ofRanges ranges).addRange range := by
  unfold ofRanges
  rw [List.foldl_append]
  rfl

theorem rising_ofRanges (ranges : List LinkedRange) : Rising (ofRanges ranges) := by
  induction ranges using List.reverseRecOn with
  | nil => exact List.Pairwise.nil
  | append_singleton ranges range ih =>
    rw [ofRanges_concat]
    exact (ih.add _ _).add _ _

/-- Every range is opened at its first token. -/
theorem countP_isOpening_within (q : Nat → Bool) (ranges : List LinkedRange) :
    (within q (ofRanges ranges)).countP SourceLink.isOpening = ranges.countP (q ·.first) := by
  induction ranges using List.reverseRecOn with
  | nil => rfl
  | append_singleton ranges range ih =>
    rw [ofRanges_concat, addRange, countP_within_add, countP_within_add, ih, List.countP_append,
      List.countP_singleton]
    simp [SourceLink.isOpening]

/-- Every range is closed behind its last token. -/
theorem count_closes_within (q : Nat → Bool) (ranges : List LinkedRange) :
    (within q (ofRanges ranges)).count .closes =
      ranges.countP fun range => q (range.last + 1) := by
  induction ranges using List.reverseRecOn with
  | nil => rfl
  | append_singleton ranges range ih =>
    have hopens : (SourceLink.opens range.reportId range.objectId == .closes) = false := rfl
    rw [ofRanges_concat, addRange, List.count, countP_within_add, countP_within_add, hopens,
      ← List.count, ih, List.countP_append, List.countP_singleton]
    simp

/-- The ranges that have begun at a token are those that hold it and those that have ended. -/
theorem countP_first_le (h : ∀ range ∈ ranges, range.first ≤ range.last) (i : Nat) :
    ranges.countP (fun range => decide (range.first ≤ i)) =
      (ranges.countP fun range => decide (range.first ≤ i ∧ i ≤ range.last)) +
        ranges.countP fun range => decide (range.last + 1 ≤ i) := by
  induction ranges with
  | nil => rfl
  | cons range ranges ih =>
    obtain ⟨hrange, hranges⟩ := List.forall_mem_cons.mp h
    rw [List.countP_cons, List.countP_cons, List.countP_cons, ih hranges]
    simp only [decide_eq_true_eq]
    split_ifs <;> omega

/-- As many ranges are open at a token as hold it. -/
theorem open_eq_countP (h : ∀ range ∈ ranges, range.first ≤ range.last) (i : Nat) :
    ((within (· ≤ i) (ofRanges ranges)).countP SourceLink.isOpening : Int) -
        (within (· ≤ i) (ofRanges ranges)).count .closes =
      ranges.countP fun range => range.first ≤ i ∧ i ≤ range.last := by
  rw [countP_isOpening_within, count_closes_within, countP_first_le h]
  omega

theorem count_closes_flatten (ranges : List LinkedRange) :
    (ofRanges ranges).flatten.count .closes =
      (ofRanges ranges).flatten.countP SourceLink.isOpening := by
  have hall (b : Boundaries) : b.flatten = b.within fun _ => true := by
    unfold within flatten
    rw [List.filter_true]
  rw [hall, count_closes_within, countP_isOpening_within]

/-! ### From the front -/

/-- A part of the ends from the front stops inside those at one token. -/
theorem exists_of_prefix_flatten {links : List SourceLink} (h : links <+: b.flatten) :
    links = [] ∨ ∃ before entry after, b = before ++ entry :: after ∧
      flatten before <+: links ∧ links <+: flatten (before ++ [entry]) := by
  induction b generalizing links with
  | nil => exact .inl (List.prefix_nil.mp h)
  | cons first b ih =>
    have hcons : flatten (first :: b) = first.2 ++ flatten b := rfl
    rw [hcons] at h
    rcases List.prefix_or_prefix_of_prefix h (List.prefix_append first.2 (flatten b)) with
      hinside | hbehind
    · exact .inr ⟨[], first, b, rfl, List.nil_prefix, by simpa [flatten] using hinside⟩
    · obtain ⟨rest, rfl⟩ := hbehind
      rw [List.prefix_append_right_inj] at h
      rcases ih h with rfl | ⟨before, entry, after, rfl, hbefore, hafter⟩
      · exact .inr ⟨[], first, b, rfl, List.nil_prefix, by simp [flatten]⟩
      · refine .inr ⟨first :: before, entry, after, rfl, ?_, ?_⟩
        · exact (List.prefix_append_right_inj _).mpr hbefore
        · exact (List.prefix_append_right_inj _).mpr hafter

theorem Rising.within_lt {before after : Boundaries} {entry : Nat × List SourceLink}
    (h : Rising (before ++ entry :: after)) :
    within (· < entry.1) (before ++ entry :: after) = before.flatten := by
  obtain ⟨-, hafter, hbefore⟩ := List.pairwise_append.mp h
  have hkept : before.filter (fun old => decide (old.1 < entry.1)) = before := by
    rw [List.filter_eq_self]
    intro old hold
    simpa using hbefore old hold entry List.mem_cons_self
  have hdropped : (entry :: after).filter (fun old => decide (old.1 < entry.1)) = [] := by
    rw [List.filter_eq_nil_iff]
    intro old hold
    rcases List.mem_cons.mp hold with rfl | hold
    · simp
    · have := (List.pairwise_cons.mp hafter).1 old hold
      simp only [decide_eq_true_eq]
      omega
  unfold within
  rw [List.filter_append, hkept, hdropped, List.append_nil]
  rfl

theorem Rising.within_le {before after : Boundaries} {entry : Nat × List SourceLink}
    (h : Rising (before ++ entry :: after)) :
    within (· ≤ entry.1) (before ++ entry :: after) = flatten (before ++ [entry]) := by
  obtain ⟨-, hafter, hbefore⟩ := List.pairwise_append.mp h
  have hkept : (before ++ [entry]).filter (fun old => decide (old.1 ≤ entry.1)) =
      before ++ [entry] := by
    rw [List.filter_eq_self]
    intro old hold
    rcases List.mem_append.mp hold with hold | hold
    · simpa using (hbefore old hold entry List.mem_cons_self).le
    · simp [List.mem_singleton.mp hold]
  have hdropped : after.filter (fun old => decide (old.1 ≤ entry.1)) = [] := by
    rw [List.filter_eq_nil_iff]
    intro old hold
    have := (List.pairwise_cons.mp hafter).1 old hold
    simp only [decide_eq_true_eq]
    omega
  unfold within
  rw [List.append_cons, List.filter_append, hkept, hdropped, List.append_nil]
  rfl

/-- Whatever is closed up to some place was opened at an earlier token. -/
theorem count_closes_le_of_prefix (h : ∀ range ∈ ranges, range.first ≤ range.last)
    {links : List SourceLink} (hlinks : links <+: (ofRanges ranges).flatten) :
    links.count .closes ≤ links.countP SourceLink.isOpening := by
  rcases exists_of_prefix_flatten hlinks with rfl | ⟨before, entry, after, heq, hbefore, hafter⟩
  · rfl
  have hrising := rising_ofRanges ranges
  rw [heq] at hrising
  calc links.count .closes
    _ ≤ (within (· ≤ entry.1) (ofRanges ranges)).count .closes := by
      rw [heq, hrising.within_le]
      exact hafter.sublist.count_le _
    _ = ranges.countP fun range => decide (range.last + 1 ≤ entry.1) := count_closes_within _ _
    _ ≤ ranges.countP fun range => decide (range.first < entry.1) := by
      apply List.countP_mono_left
      intro range hrange hclosed
      have := h range hrange
      simp only [decide_eq_true_eq] at hclosed ⊢
      omega
    _ = (within (· < entry.1) (ofRanges ranges)).countP SourceLink.isOpening :=
      (countP_isOpening_within (fun i => decide (i < entry.1)) ranges).symm
    _ ≤ links.countP SourceLink.isOpening := by
      rw [heq, hrising.within_lt]
      exact hbefore.sublist.countP_le

end Boundaries

namespace LinkDatabase

/-- The database after some ranges have been recorded, each with its file. -/
def addRanges (db : LinkDatabase) (calls : List (String × LinkedRange)) : LinkDatabase :=
  calls.foldl (fun db call => db.addRange call.1 call.2) db

/-- The ranges of a file, in the order in which they were recorded. -/
def rangesOf (file : String) (calls : List (String × LinkedRange)) : List LinkedRange :=
  (calls.filter (·.1 == file)).map (·.2)

/-- The ends of ranges in a file come from its own ranges. -/
theorem sourceLinks_addRanges (calls : List (String × LinkedRange)) (file : String) :
    (empty.addRanges calls).sourceLinks file = Boundaries.ofRanges (rangesOf file calls) := by
  induction calls using List.reverseRecOn with
  | nil => rfl
  | append_singleton calls call ih =>
    have hstep : empty.addRanges (calls ++ [call]) =
        (empty.addRanges calls).addRange call.1 call.2 := by
      unfold addRanges
      rw [List.foldl_append]
      rfl
    have hranges : rangesOf file (calls ++ [call]) =
        rangesOf file calls ++ rangesOf file [call] := by
      unfold rangesOf
      rw [List.filter_append, List.map_append]
    rw [hstep, hranges]
    by_cases hfile : call.1 = file
    · have hown : rangesOf file [call] = [call.2] := by simp [rangesOf, hfile]
      rw [hown, Boundaries.ofRanges_concat, ← ih]
      unfold addRange sourceLinks Dict.update
      rw [hfile, Dict.get?_insert_self, Option.getD_some]
    · have hother : rangesOf file [call] = [] := by simp [rangesOf, hfile]
      rw [hother, List.append_nil, ← ih]
      unfold addRange sourceLinks Dict.update
      rw [Dict.get?_insert_of_ne (Ne.symm hfile)]

/--
Of ranges that do not end before they begin, as many are open at a token as hold it; the tokens rise,
so that each is listed once; from the front no more ranges are closed than opened, and all of them
are closed in the end.
-/
theorem sourceLinks_balanced (calls : List (String × LinkedRange)) (file : String)
    (h : ∀ call ∈ calls, call.2.first ≤ call.2.last) :
    let b := (empty.addRanges calls).sourceLinks file
    (∀ i : Nat, ((b.within (· ≤ i)).countP SourceLink.isOpening : Int) -
        (b.within (· ≤ i)).count .closes =
      calls.countP fun call => call.1 = file ∧ call.2.first ≤ i ∧ i ≤ call.2.last) ∧
    b.Rising ∧
    (∀ links, links <+: b.flatten → links.count .closes ≤ links.countP SourceLink.isOpening) ∧
    b.flatten.count .closes = b.flatten.countP SourceLink.isOpening := by
  have hordered : ∀ range ∈ rangesOf file calls, range.first ≤ range.last := by
    intro range hrange
    obtain ⟨call, hcall, rfl⟩ := List.mem_map.mp hrange
    exact h call (List.mem_of_mem_filter hcall)
  rw [sourceLinks_addRanges]
  refine ⟨?_, Boundaries.rising_ofRanges _, fun links hlinks =>
    Boundaries.count_closes_le_of_prefix hordered hlinks, Boundaries.count_closes_flatten _⟩
  intro i
  rw [Boundaries.open_eq_countP hordered, rangesOf, List.countP_map, List.countP_filter]
  congr 2
  funext call
  rw [Bool.eq_iff_iff]
  simp [and_comm]

/-- Two ranges that touch, and one around the second of them. -/
theorem sourceLinks_balanced_touching :
    let calls : List (String × LinkedRange) :=
      [("a.php", ⟨3, 4, "classes", "A"⟩), ("b.php", ⟨0, 9, "classes", "C"⟩),
        ("a.php", ⟨5, 8, "classes", "B"⟩), ("a.php", ⟨4, 8, "functions", "f"⟩)]
    let b := (empty.addRanges calls).sourceLinks "a.php"
    (∀ call ∈ calls, call.2.first ≤ call.2.last) ∧
    b = [(3, [.opens "classes" "A"]), (4, [.opens "functions" "f"]),
      (5, [.closes, .opens "classes" "B"]), (9, [.closes, .closes])] ∧
    ((b.within (· ≤ 5)).countP SourceLink.isOpening : Int) - (b.within (· ≤ 5)).count .closes = 2 ∧
    ∀ links, links <+: b.flatten → links.count .closes ≤ links.countP SourceLink.isOpening := by
  intro calls b
  have hordered : ∀ call ∈ calls, call.2.first ≤ call.2.last := by decide
  obtain ⟨hopen, -, hprefix, -⟩ := sourceLinks_balanced calls "a.php" hordered
  exact ⟨hordered, by decide +kernel, hopen 5, hprefix⟩

end LinkDatabase

end PhpLint
