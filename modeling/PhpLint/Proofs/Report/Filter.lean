import PhpLint.Proofs.Report

/-!
What a filter shows of a report: of every file the defects that it accepts, in a stable sort by
line, and no file without such a defect. Two filters one after the other show what a single filter
shows, with the higher of their levels and without the codes of both.
-/
namespace PhpLint

namespace Severity

theorem level_injective : Function.Injective level := by
  intro a b h
  cases a <;> cases b <;> first | rfl | contradiction

/-- Severities in the order of their weight. -/
instance : LinearOrder Severity :=
  LinearOrder.lift' level level_injective

end Severity

namespace ReportFilter

variable {filter : ReportFilter} {d : Defect}

/-- A defect that a filter lets through. -/
def Shows (filter : ReportFilter) (d : Defect) : Prop :=
  filter.level ≤ d.severity ∧ d.code ∉ filter.ignored

instance (filter : ReportFilter) : DecidablePred filter.Shows :=
  fun d => inferInstanceAs (Decidable (filter.level ≤ d.severity ∧ d.code ∉ filter.ignored))

/-- One filter in place of two. -/
def join (first second : ReportFilter) : ReportFilter :=
  ⟨max first.level second.level, first.ignored ∪ second.ignored⟩

theorem accepts_eq_shows (filter : ReportFilter) : filter.accepts = (filter.Shows ·) := by
  funext d
  change (decide (filter.level.level ≤ d.severity.level) && !filter.ignored.contains d.code) =
    decide (filter.level.level ≤ d.severity.level ∧ d.code ∉ filter.ignored)
  rw [Bool.decide_and, decide_not, List.contains_eq_mem]

theorem shows_join (first second : ReportFilter) (d : Defect) :
    (first.join second).Shows d ↔ first.Shows d ∧ second.Shows d := by
  unfold Shows join
  rw [max_le_iff, List.mem_union_iff, not_or, and_and_and_comm]

end ReportFilter

namespace Report

/-- The same defects by line; those of one line stay in the order in which they were. -/
structure IsStableSort (defects sorted : List Defect) : Prop where
  perm : sorted.Perm defects
  rising : sorted.Pairwise (·.line ≤ ·.line)
  stable : ∀ line, sorted.filter (·.line = line) = defects.filter (·.line = line)

variable {report : Report} {defects sorted sorted' : List Defect}

/-! ### Stable sorts -/

private theorem line_le {d e : Defect} {rest : List Defect}
    (h : (d :: rest).Pairwise (·.line ≤ ·.line)) (he : e ∈ d :: rest) : d.line ≤ e.line := by
  rcases List.mem_cons.mp he with rfl | he
  · exact le_rfl
  · exact (List.pairwise_cons.mp h).1 e he

private theorem mem_iff_of_lines
    (hlines : ∀ line, sorted.filter (·.line = line) = sorted'.filter (·.line = line))
    (e : Defect) : e ∈ sorted ↔ e ∈ sorted' := by
  have := congrArg (e ∈ ·) (hlines e.line)
  simpa using this

/-- An order by line leaves no choice where the order within each line is fixed. -/
theorem eq_of_lines (h : sorted.Pairwise (·.line ≤ ·.line))
    (h' : sorted'.Pairwise (·.line ≤ ·.line))
    (hlines : ∀ line, sorted.filter (·.line = line) = sorted'.filter (·.line = line)) :
    sorted = sorted' := by
  induction sorted generalizing sorted' with
  | nil =>
    refine (List.eq_nil_iff_forall_not_mem.mpr fun e he => ?_).symm
    exact List.not_mem_nil ((mem_iff_of_lines hlines e).mpr he)
  | cons d rest ih =>
    have hd : d ∈ sorted' := (mem_iff_of_lines hlines d).mp List.mem_cons_self
    cases sorted' with
    | nil => contradiction
    | cons d' rest' =>
      have hline : d.line = d'.line :=
        le_antisymm (line_le h ((mem_iff_of_lines hlines d').mpr List.mem_cons_self))
          (line_le h' hd)
      obtain rfl : d = d' := by
        have := hlines d.line
        rw [List.filter_cons_of_pos (by simp), List.filter_cons_of_pos (by simp [hline])] at this
        exact (List.cons.inj this).1
      have hrest (line : Nat) : rest.filter (·.line = line) = rest'.filter (·.line = line) := by
        have := hlines line
        rw [List.filter_cons, List.filter_cons] at this
        split_ifs at this
        · exact (List.cons.inj this).2
        · exact this
      rw [ih h.of_cons h'.of_cons hrest]

theorem IsStableSort.unique (h : IsStableSort defects sorted) (h' : IsStableSort defects sorted') :
    sorted = sorted' :=
  eq_of_lines h.rising h'.rising fun line => (h.stable line).trans (h'.stable line).symm

theorem IsStableSort.trans (h : IsStableSort defects sorted) (h' : IsStableSort sorted sorted') :
    IsStableSort defects sorted' :=
  ⟨h'.perm.trans h.perm, h'.rising, fun line => (h'.stable line).trans (h.stable line)⟩

/-- What is left out can be left out before the sort or after it. -/
theorem IsStableSort.filter (h : IsStableSort defects sorted) (p : Defect → Bool) :
    IsStableSort (defects.filter p) (sorted.filter p) := by
  refine ⟨h.perm.filter p, h.rising.filter p, fun line => ?_⟩
  rw [List.filter_comm, h.stable line, List.filter_comm]

theorem isStableSort_mergeSort (defects : List Defect) :
    IsStableSort defects (defects.mergeSort fun a b => a.line ≤ b.line) := by
  have htrans (a b c : Defect) (hab : decide (a.line ≤ b.line)) (hbc : decide (b.line ≤ c.line)) :
      decide (a.line ≤ c.line) := by
    rw [decide_eq_true_iff] at *
    exact hab.trans hbc
  have htotal (a b : Defect) : (decide (a.line ≤ b.line) || decide (b.line ≤ a.line)) := by
    rw [Bool.or_eq_true, decide_eq_true_iff, decide_eq_true_iff]
    exact le_total a.line b.line
  have hperm := List.mergeSort_perm defects fun a b => decide (a.line ≤ b.line)
  refine ⟨hperm, ?_, fun line => ?_⟩
  · exact (List.pairwise_mergeSort htrans htotal defects).imp of_decide_eq_true
  · -- the defects of one line are in order, so that the sort keeps them as a part of its result
    have hequal : (defects.filter (·.line = line)).Pairwise fun a b => decide (a.line ≤ b.line) := by
      refine List.pairwise_of_forall_mem_list fun a ha b hb => ?_
      rw [List.mem_filter, decide_eq_true_iff] at ha hb
      rw [decide_eq_true_iff, ha.2, hb.2]
    have hsublist := (List.sublist_mergeSort htrans htotal hequal List.filter_sublist).filter
      (·.line = line)
    rw [List.filter_filter] at hsublist
    simp only [Bool.and_self] at hsublist
    exact (hsublist.eq_of_length (hperm.filter _).length_eq.symm).symm

/-! ### Reports -/

/-- What a filter shows of the defects of one file. -/
def shown (filter : ReportFilter) (defects : List Defect) : List Defect :=
  (defects.filter filter.accepts).mergeSort fun a b => a.line ≤ b.line

theorem isStableSort_shown (filter : ReportFilter) (defects : List Defect) :
    IsStableSort (defects.filter filter.Shows) (shown filter defects) := by
  unfold shown
  rw [ReportFilter.accepts_eq_shows]
  exact isStableSort_mergeSort _

/-- Of equal lines the defects stay in order when others between them are left out, so that it does
not matter whether they are left out before the first sort or after it. -/
theorem shown_shown (first second : ReportFilter) (defects : List Defect) :
    shown second (shown first defects) = shown (first.join second) defects := by
  have hboth : defects.filter (first.join second).Shows =
      (defects.filter first.Shows).filter second.Shows := by
    rw [List.filter_filter]
    refine List.filter_congr fun d _ => ?_
    rw [Bool.and_comm, ← Bool.decide_and]
    exact decide_eq_decide.mpr (ReportFilter.shows_join first second d)
  have hfirst := (isStableSort_shown first defects).filter second.Shows
  have htwice := hfirst.trans (isStableSort_shown second (shown first defects))
  rw [← hboth] at htwice
  exact htwice.unique (isStableSort_shown (first.join second) defects)

theorem shown_ne_nil_iff {filter : ReportFilter} {defects : List Defect} :
    shown filter defects ≠ [] ↔ ∃ d ∈ defects, filter.Shows d := by
  have hperm := (isStableSort_shown filter defects).perm
  constructor
  · intro hne
    obtain ⟨d, hd⟩ := List.exists_mem_of_ne_nil _ hne
    rw [hperm.mem_iff, List.mem_filter, decide_eq_true_iff] at hd
    exact ⟨d, hd⟩
  · rintro ⟨d, hd, hshows⟩
    have hmem : d ∈ defects.filter filter.Shows :=
      List.mem_filter.mpr ⟨hd, decide_eq_true hshows⟩
    exact List.ne_nil_of_mem (hperm.mem_iff.mpr hmem)

theorem filterMapDefects_filterMapDefects (f g : String → List Defect → List Defect)
    (hnil : ∀ file, f file [] = []) (report : Report) :
    (report.filterMapDefects g).filterMapDefects f =
      report.filterMapDefects fun file defects => f file (g file defects) := by
  unfold filterMapDefects
  rw [List.filterMap_filterMap]
  refine List.filterMap_congr fun entry _ => ?_
  obtain ⟨file, defects⟩ := entry
  dsimp only
  cases hkept : g file defects with
  | nil => simp [hnil]
  | cons d kept => simp

theorem sorted_filterMapDefects (h : report.Sorted) (f : String → List Defect → List Defect) :
    (report.filterMapDefects f).Sorted := by
  have hkey {entry kept : String × List Defect} (hkept : (if (f entry.1 entry.2).isEmpty then none
      else some (entry.1, f entry.1 entry.2)) = some kept) : kept.1 = entry.1 := by
    split_ifs at hkept
    rw [← Option.some.inj hkept]
  refine h.filterMap _ fun entry entry' hlt kept hkept kept' hkept' => ?_
  rw [hkey hkept, hkey hkept']
  exact hlt

/-- A changed report holds the files for which something is kept. -/
theorem contains_filterMapDefects (h : report.Sorted) (f : String → List Defect → List Defect)
    (file : String) : (report.filterMapDefects f).contains file ↔
      (report.filterMapDefects f).defectsOf file ≠ [] := by
  unfold Dict.contains defectsOf
  rw [get?_filterMapDefects h]
  cases report.get? file with
  | none => simp
  | some defects =>
    rw [Option.map_some]
    cases f file defects with
    | nil => decide
    | cons d kept => simp [Option.filter]

theorem sortedAndFiltered_eq (filter : ReportFilter) (report : Report) :
    sortedAndFiltered filter report = report.filterMapDefects fun _ => shown filter :=
  rfl

theorem sortedAndFiltered_sortedAndFiltered (first second : ReportFilter) (report : Report) :
    sortedAndFiltered second (sortedAndFiltered first report) =
      sortedAndFiltered (first.join second) report := by
  have hnil : shown second [] = [] := List.mergeSort_nil
  rw [sortedAndFiltered_eq, sortedAndFiltered_eq, sortedAndFiltered_eq,
    filterMapDefects_filterMapDefects _ _ fun _ => hnil]
  simp only [shown_shown]

/--
A filtered report holds, file by file, a stable sort by line of exactly the defects that the filter
shows, and exactly the files that have such a defect. Filters compose to the one that shows what
both of them show, so that it makes no difference to filter twice.
-/
theorem sortedAndFiltered_isStableSort (h : report.Sorted) (filter : ReportFilter) :
    (sortedAndFiltered filter report).Sorted ∧
    (∀ file, IsStableSort ((report.defectsOf file).filter filter.Shows)
      ((sortedAndFiltered filter report).defectsOf file)) ∧
    (∀ file, (sortedAndFiltered filter report).contains file ↔
      ∃ d ∈ report.defectsOf file, filter.Shows d) ∧
    (∀ other, sortedAndFiltered other (sortedAndFiltered filter report) =
      sortedAndFiltered (filter.join other) report) ∧
    sortedAndFiltered filter (sortedAndFiltered filter report) =
      sortedAndFiltered filter report := by
  have hdefects (file : String) :
      (sortedAndFiltered filter report).defectsOf file = shown filter (report.defectsOf file) :=
    defectsOf_filterMapDefects h (fun _ => List.mergeSort_nil) file
  refine ⟨sorted_filterMapDefects h _, fun file => ?_, fun file => ?_, ?_, ?_⟩
  · rw [hdefects]
    exact isStableSort_shown filter _
  · rw [← shown_ne_nil_iff, ← hdefects]
    exact contains_filterMapDefects h _ file
  · exact fun other => sortedAndFiltered_sortedAndFiltered filter other report
  · have hself : (filter.join filter).accepts = filter.accepts := by
      rw [ReportFilter.accepts_eq_shows, ReportFilter.accepts_eq_shows]
      simp only [ReportFilter.shows_join, and_self_iff]
    rw [sortedAndFiltered_sortedAndFiltered]
    unfold sortedAndFiltered
    rw [hself]

/-- Two filters drop defects between and beside others of one line, and with them a whole file. -/
theorem sortedAndFiltered_isStableSort_equal_lines :
    let found (line : Nat) (code : String) (severity : Severity) : Defect :=
      .detached "a.php" line code code severity "found"
    let report : Report := [("a.php", [found 4 "w1" .warning, found 4 "e1" .error,
      found 2 "e2" .fatal, found 4 "e3" .error]), ("b.php", [found 1 "n1" .notice])]
    let first : ReportFilter := ⟨.warning, ["e2"]⟩
    let second : ReportFilter := ⟨.error, []⟩
    Dict.Sorted report ∧
    sortedAndFiltered second (sortedAndFiltered first report) =
      sortedAndFiltered ⟨.error, ["e2"]⟩ report ∧
    ((sortedAndFiltered first report).defectsOf "a.php").filter (·.line = 4) =
      [found 4 "w1" .warning, found 4 "e1" .error, found 4 "e3" .error] ∧
    (sortedAndFiltered first report).contains "b.php" = false := by
  intro found report first second
  have hsorted : Dict.Sorted report := List.pairwise_pair.mpr (by decide)
  obtain ⟨_, hstable, hcontains, hcompose, _⟩ := sortedAndFiltered_isStableSort hsorted first
  refine ⟨hsorted, hcompose second, ?_, ?_⟩
  · rw [(hstable "a.php").stable]
    decide +kernel
  · rw [Bool.eq_false_iff, Ne, hcontains]
    decide +kernel

end Report

end PhpLint
