import PhpLint.Proofs.Dict
import PhpLint.Report

/-!
What is new between two reports. It is a difference of multisets: of every signature so many
defects are taken away from the front as the earlier report has, and all others stay in place.
-/
namespace PhpLint

namespace Report

/-- How many of some defects have a signature. -/
def occurrences (defects : List Defect) (s : Defect.Signature) : Nat :=
  (defects.map Defect.signature).count s

/-- The defects of a file; a file without defects is in no report. -/
def defectsOf (report : Report) (file : String) : List Defect :=
  (report.get? file).getD []

/-- What is left of the defects of a file when those of an earlier list are taken away. -/
structure IsDifference (earlier defects kept : List Defect) : Prop where
  /-- Signatures are counted. -/
  count : ∀ s, occurrences kept s = occurrences defects s - occurrences earlier s
  /-- Of one signature the first ones are dropped. -/
  dropped : ∀ s, defects.filter (·.signature = s) =
    (defects.filter (·.signature = s)).take (min (occurrences earlier s) (occurrences defects s)) ++
      kept.filter (·.signature = s)
  /-- A defect is kept if as many of its signature come before it as there were earlier. -/
  kept : kept = (defects.zipIdx.filter fun (d, i) =>
    occurrences earlier d.signature ≤ occurrences (defects.take i) d.signature).map (·.1)

variable {earlier report : Report} {known : List Defect.Signature} {d : Defect}
  {defects kept : List Defect} {s : Defect.Signature} {file : String}

/-! ### One list of defects -/

theorem occurrences_cons (d : Defect) (defects : List Defect) (s : Defect.Signature) :
    occurrences (d :: defects) s = occurrences defects s + if d.signature = s then 1 else 0 := by
  unfold occurrences
  rw [List.map_cons, List.count_cons]
  simp only [beq_iff_eq]

theorem occurrences_eq_length_filter (defects : List Defect) (s : Defect.Signature) :
    occurrences defects s = (defects.filter (·.signature = s)).length := by
  unfold occurrences
  rw [List.count_eq_countP, List.countP_map, ← List.countP_eq_length_filter]
  exact List.countP_congr fun d _ => by simp

theorem withoutKnown_of_mem (h : d.signature ∈ known) (defects : List Defect) :
    withoutKnown known (d :: defects) = withoutKnown (known.erase d.signature) defects := by
  rw [withoutKnown, if_pos (List.contains_iff_mem.mpr h)]

theorem withoutKnown_of_not_mem (h : d.signature ∉ known) (defects : List Defect) :
    withoutKnown known (d :: defects) = d :: withoutKnown known defects := by
  rw [withoutKnown, if_neg (by simpa using h)]

/-- Of one signature, so many defects are dropped as are known. -/
theorem filter_withoutKnown (known : List Defect.Signature) (defects : List Defect)
    (s : Defect.Signature) : (withoutKnown known defects).filter (·.signature = s) =
      (defects.filter (·.signature = s)).drop (known.count s) := by
  induction defects generalizing known with
  | nil => rw [withoutKnown, List.filter_nil, List.drop_nil]
  | cons d defects ih =>
    by_cases hmem : d.signature ∈ known
    · rw [withoutKnown_of_mem hmem, ih]
      by_cases hs : d.signature = s
      · have hpos := List.count_pos_iff.mpr hmem
        rw [hs] at hpos
        obtain ⟨n, hn⟩ := Nat.exists_eq_succ_of_ne_zero hpos.ne'
        rw [List.filter_cons_of_pos (by simpa using hs), hs, List.count_erase_self, hn,
          List.drop_succ_cons, Nat.succ_sub_one]
      · rw [List.filter_cons_of_neg (by simpa using hs), List.count_erase_of_ne (Ne.symm hs)]
    · rw [withoutKnown_of_not_mem hmem]
      by_cases hs : d.signature = s
      · have hzero : known.count s = 0 := List.count_eq_zero.mpr (hs ▸ hmem)
        rw [List.filter_cons_of_pos (by simpa using hs),
          List.filter_cons_of_pos (by simpa using hs), ih, hzero, List.drop_zero, List.drop_zero]
      · rw [List.filter_cons_of_neg (by simpa using hs),
          List.filter_cons_of_neg (by simpa using hs), ih]

/-- Whether a defect is kept depends on how many of its signature come before it. -/
theorem withoutKnown_eq_filter (known : List Defect.Signature) (defects : List Defect) :
    withoutKnown known defects = (defects.zipIdx.filter fun (d, i) =>
      known.count d.signature ≤ occurrences (defects.take i) d.signature).map (·.1) := by
  induction defects generalizing known with
  | nil => rfl
  | cons d defects ih =>
    -- what comes behind `d` is counted by one more if it has the same signature
    have htail (remaining : List Defect.Signature)
        (hcount : ∀ (e : Defect) n, remaining.count e.signature ≤ n ↔
          known.count e.signature ≤ n + if d.signature = e.signature then 1 else 0) :
        withoutKnown remaining defects = ((defects.zipIdx 1).filter fun (e, i) =>
          known.count e.signature ≤ occurrences ((d :: defects).take i) e.signature).map (·.1) := by
      rw [ih, List.zipIdx_succ, List.filter_map, List.map_map]
      congr 1
      refine List.filter_congr fun entry _ => ?_
      obtain ⟨e, i⟩ := entry
      simp only [Function.comp, List.take_succ_cons, occurrences_cons, hcount]
    rw [List.zipIdx_cons]
    by_cases hmem : d.signature ∈ known
    · have hpos := List.count_pos_iff.mpr hmem
      have hdropped : ¬ decide (known.count d.signature ≤ occurrences [] d.signature) :=
        decide_eq_true_iff.not.mpr (Nat.not_le.mpr hpos)
      rw [withoutKnown_of_mem hmem, List.filter_cons_of_neg (by exact hdropped)]
      refine htail _ fun e n => ?_
      by_cases he : d.signature = e.signature
      · rw [← he, List.count_erase_self, if_pos rfl]
        omega
      · rw [List.count_erase_of_ne (Ne.symm he), if_neg he, Nat.add_zero]
    · have hzero := List.count_eq_zero.mpr hmem
      rw [withoutKnown_of_not_mem hmem,
        List.filter_cons_of_pos (by simp [hzero]), List.map_cons]
      congr 1
      refine htail known fun e n => ?_
      by_cases he : d.signature = e.signature
      · rw [← he, hzero]
        omega
      · rw [if_neg he, Nat.add_zero]

theorem isDifference_withoutKnown (earlier defects : List Defect) :
    IsDifference earlier defects (withoutKnown (earlier.map Defect.signature) defects) := by
  refine ⟨fun s => ?_, fun s => ?_, withoutKnown_eq_filter _ _⟩
  · rw [occurrences_eq_length_filter, filter_withoutKnown, List.length_drop,
      ← occurrences_eq_length_filter]
    rfl
  · rw [filter_withoutKnown, occurrences_eq_length_filter defects]
    change _ = _ ++ (defects.filter (·.signature = s)).drop (occurrences earlier s)
    rcases Nat.le_total (occurrences earlier s) (defects.filter (·.signature = s)).length with h | h
    · rw [Nat.min_eq_left h, List.take_append_drop]
    · rw [Nat.min_eq_right h, List.take_length, List.drop_of_length_le h, List.append_nil]

theorem withoutKnown_self (defects : List Defect) :
    withoutKnown (defects.map Defect.signature) defects = [] := by
  induction defects with
  | nil => rfl
  | cons d defects ih =>
    rw [List.map_cons, withoutKnown_of_mem List.mem_cons_self, List.erase_cons_head, ih]

/-! ### Reports -/

/-- A file is in a changed report if something is kept for it. -/
theorem get?_filterMapDefects (h : report.Sorted) (f : String → List Defect → List Defect)
    (file : String) : (report.filterMapDefects f).get? file =
      ((report.get? file).map (f file)).filter (!·.isEmpty) := by
  have hform : report.filterMapDefects f = report.filterMap fun entry =>
      (Option.guard (!·.isEmpty) (f entry.1 entry.2)).map (entry.1, ·) := by
    unfold filterMapDefects
    congr 1
    funext entry
    obtain ⟨file, defects⟩ := entry
    dsimp only
    cases f file defects <;> rfl
  rw [hform, h.get?_filterMap fun file defects => Option.guard (!·.isEmpty) (f file defects)]
  cases report.get? file with
  | none => rfl
  | some defects => cases f file defects <;> rfl

/-- A file keeps what is kept of its defects; of none, nothing is kept. -/
theorem defectsOf_filterMapDefects (h : report.Sorted) {f : String → List Defect → List Defect}
    (hnil : ∀ file, f file [] = []) (file : String) :
    (report.filterMapDefects f).defectsOf file = f file (report.defectsOf file) := by
  unfold defectsOf
  rw [get?_filterMapDefects h]
  cases report.get? file with
  | none => exact (hnil file).symm
  | some defects =>
    rw [Option.map_some, Option.getD_some]
    cases hkept : f file defects with
    | nil => rfl
    | cons d kept => rfl

theorem defectsOf_newSince (h : report.Sorted) (earlier : Report) (file : String) :
    (newSince earlier report).defectsOf file =
      withoutKnown ((earlier.defectsOf file).map Defect.signature) (report.defectsOf file) :=
  defectsOf_filterMapDefects h (fun _ => rfl) file

theorem newSince_self (h : report.Sorted) : newSince report report = [] := by
  refine List.filterMap_eq_nil_iff.mpr fun entry hentry => ?_
  obtain ⟨file, defects⟩ := entry
  have hkept : withoutKnown (((report.get? file).getD []).map Defect.signature) defects = [] := by
    rw [h.get?_of_mem hentry]
    exact withoutKnown_self defects
  simp only [hkept, List.isEmpty_nil, if_true]

/--
What is new in a report is the difference of its defects by signature, file by file. Files for which
nothing is left are not in it, and nothing is new between a report and itself.
-/
theorem newSince_isDifference (h : report.Sorted) (earlier : Report) :
    (∀ file, IsDifference (earlier.defectsOf file) (report.defectsOf file)
      ((newSince earlier report).defectsOf file)) ∧
    (∀ file, (newSince earlier report).contains file ↔
      (newSince earlier report).defectsOf file ≠ []) ∧
    (∀ file, report.contains file = false → (newSince earlier report).contains file = false) ∧
    newSince report report = [] := by
  refine ⟨fun file => ?_, fun file => ?_, fun file hnone => ?_, newSince_self h⟩
  · rw [defectsOf_newSince h]
    exact isDifference_withoutKnown _ _
  · unfold Dict.contains defectsOf newSince
    rw [get?_filterMapDefects h]
    cases report.get? file with
    | none => simp
    | some defects =>
      rw [Option.map_some]
      cases withoutKnown (((earlier.get? file).getD []).map Defect.signature) defects with
      | nil => decide
      | cons d kept => simp [Option.filter]
  · unfold Dict.contains at hnone ⊢
    rw [Option.isSome_eq_false_iff, Option.isNone_iff_eq_none] at hnone
    unfold newSince
    rw [get?_filterMapDefects h, hnone]
    rfl

/-- One defect was there before, comes twice now, and a file is gone. -/
theorem newSince_isDifference_second_copy :
    let d : Defect := .detached "a.php" 1 "TRUE" "lc01" .notice "literal"
    let later : Defect := { d with line := 7 }
    let earlier : Report := [("a.php", [d]), ("b.php", [d])]
    let report : Report := [("a.php", [d, later])]
    Dict.Sorted report ∧ newSince earlier report = [("a.php", [later])] ∧
    (∀ file, IsDifference (earlier.defectsOf file) (report.defectsOf file)
      ((newSince earlier report).defectsOf file)) ∧
    (∀ file, (newSince earlier report).contains file ↔
      (newSince earlier report).defectsOf file ≠ []) ∧
    (∀ file, report.contains file = false → (newSince earlier report).contains file = false) ∧
    newSince report report = [] := by
  intro d later earlier report
  have hsorted : Dict.Sorted report := List.pairwise_singleton _ _
  exact ⟨hsorted, by decide +kernel, newSince_isDifference hsorted earlier⟩

end Report

end PhpLint
