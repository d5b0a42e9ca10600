import PhpLint.Model.Name
import Mathlib

/-!
Resolution of a written name by its segments. A name is full, or relative to the namespace in
force, or its first segment is an import, or it is local to the namespace.
-/
namespace PhpLint

theorem Text.toLower_mem_fold {s : List Char} {c : Char} (h : c ∈ s) :
    c.toLower ∈ (Text.fold (String.ofList s)).toList := by
  unfold Text.fold
  rw [String.toList_ofList, String.toList_ofList]
  exact List.mem_map_of_mem h

namespace Namespace

variable {ns : Namespace} {first rest s r : List Char} {full : String}

/-- A text before its first separator, and from there on. -/
structure IsSegments (first rest s : List Char) : Prop where
  eq : s = first ++ rest
  first : '\\' ∉ first
  rest : rest = [] ∨ ∃ r, rest = '\\' :: r

theorem isSegments_takeWhile (s : List Char) :
    IsSegments (s.takeWhile (· != '\\')) (s.dropWhile (· != '\\')) s where
  eq := (List.takeWhile_append_dropWhile).symm
  first h := by simpa using List.mem_takeWhile_imp h
  rest := by
    cases hrest : s.dropWhile (· != '\\') with
    | nil => exact .inl rfl
    | cons c r =>
      have hnot := List.head?_dropWhile_not (· != '\\') s
      rw [hrest] at hnot
      have hc : c = '\\' := by simpa using hnot
      exact .inr ⟨r, by rw [hc]⟩

theorem IsSegments.takeWhile_eq (h : IsSegments first rest s) :
    s.takeWhile (· != '\\') = first ∧ s.dropWhile (· != '\\') = rest := by
  have hfirst : ∀ c ∈ first, (c != '\\') = true := by
    intro c hc
    rw [bne_iff_ne]
    rintro rfl
    exact h.first hc
  rw [h.eq, List.takeWhile_append_of_pos hfirst, List.dropWhile_append_of_pos hfirst]
  rcases h.rest with hrest | ⟨r, hrest⟩
  · simp [hrest]
  · simp [hrest]

theorem IsSegments.head?_ne (h : IsSegments first rest s) (hne : first ≠ []) :
    s.head? ≠ some '\\' := by
  rw [h.eq, List.head?_append_of_ne_nil _ hne]
  intro hhead
  exact h.first (List.mem_of_mem_head? hhead)

theorem IsSegments.ne_nil (h : IsSegments first ('\\' :: r) s) (hs : s.head? ≠ some '\\') :
    first ≠ [] := by
  rintro rfl
  rw [h.eq] at hs
  exact hs rfl

theorem toLower_mem_of_sameFold {c : Char}
    (h : Text.sameFold (String.ofList first) "namespace" = true) (hc : c ∈ first) :
    c.toLower ∈ "namespace".toList := by
  have hlower := Text.toLower_mem_fold hc
  rw [beq_iff_eq.mp h] at hlower
  exact hlower

theorem not_mem_of_sameFold (h : Text.sameFold (String.ofList first) "namespace" = true) :
    '\\' ∉ first := by
  intro hmem
  exact absurd (toLower_mem_of_sameFold h hmem) (by decide)

theorem ne_nil_of_sameFold (h : Text.sameFold (String.ofList first) "namespace" = true) :
    first ≠ [] := by
  rintro rfl
  exact absurd h (by decide)

/-- A first segment that refers to the namespace in force. -/
def IsRelative (first rest : List Char) : Prop :=
  Text.sameFold (String.ofList first) "namespace" = true ∧ rest ≠ []

theorem qualify_full (ns : Namespace) (s : List Char) :
    ns.qualify (String.ofList ('\\' :: s)) = String.ofList s := by
  unfold qualify
  rw [String.toList_ofList]
  rfl

private theorem qualify_of_segments (h : IsSegments first rest s) (hs : s.head? ≠ some '\\') :
    ns.qualify (String.ofList s) =
      if Text.sameFold (String.ofList first) "namespace" && !rest.isEmpty then
        qualifyLocal ns.name (String.ofList (rest.drop 1))
      else
        match ns.imports.lookup (Text.fold (String.ofList first)) with
        | some full => full ++ String.ofList rest
        | none => qualifyLocal ns.name (String.ofList s) := by
  obtain ⟨rfl, rfl⟩ := h.takeWhile_eq
  unfold qualify
  rw [String.toList_ofList]
  split
  · exact absurd rfl hs
  · rfl

theorem qualify_relative (h : IsSegments first ('\\' :: r) s) (hs : s.head? ≠ some '\\')
    (hrelative : IsRelative first ('\\' :: r)) :
    ns.qualify (String.ofList s) = qualifyLocal ns.name (String.ofList r) := by
  rw [qualify_of_segments h hs, hrelative.1]
  rfl

theorem qualify_imported (h : IsSegments first rest s) (hs : s.head? ≠ some '\\')
    (hrelative : ¬ IsRelative first rest)
    (himport : ns.imports.lookup (Text.fold (String.ofList first)) = some full) :
    ns.qualify (String.ofList s) = full ++ String.ofList rest := by
  rw [qualify_of_segments h hs, himport, if_neg]
  unfold IsRelative at hrelative
  simpa using hrelative

theorem qualify_local (h : IsSegments first rest s) (hs : s.head? ≠ some '\\')
    (hrelative : ¬ IsRelative first rest)
    (himport : ns.imports.lookup (Text.fold (String.ofList first)) = none) :
    ns.qualify (String.ofList s) = qualifyLocal ns.name (String.ofList s) := by
  rw [qualify_of_segments h hs, himport, if_neg]
  unfold IsRelative at hrelative
  simpa using hrelative

theorem qualifyLocal_append (space : String) (s t : List Char) :
    qualifyLocal space (String.ofList (s ++ t)) =
      qualifyLocal space (String.ofList s) ++ String.ofList t := by
  unfold qualifyLocal
  rw [String.ofList_append]
  split
  · rfl
  · simp only [String.append_assoc]

/-- What follows the first separator of a name is put behind its full name. -/
theorem qualify_append (h : '\\' ∈ s) (t : List Char) :
    ns.qualify (String.ofList (s ++ t)) = ns.qualify (String.ofList s) ++ String.ofList t := by
  by_cases hs : s.head? = some '\\'
  · obtain ⟨r, rfl⟩ := List.head?_eq_some_iff.mp hs
    rw [List.cons_append, qualify_full, qualify_full, String.ofList_append]
  have hst : (s ++ t).head? ≠ some '\\' := by
    rwa [List.head?_append_of_ne_nil _ (List.ne_nil_of_mem h)]
  have hsegments := isSegments_takeWhile s
  generalize s.takeWhile (· != '\\') = first at hsegments
  generalize s.dropWhile (· != '\\') = rest at hsegments
  have hrest : rest ≠ [] := by
    rintro rfl
    rw [hsegments.eq, List.append_nil] at h
    exact hsegments.first h
  obtain ⟨r, rfl⟩ := hsegments.rest.resolve_left hrest
  have hlonger : IsSegments first ('\\' :: (r ++ t)) (s ++ t) :=
    ⟨by rw [hsegments.eq, List.append_assoc, List.cons_append], hsegments.first, .inr ⟨_, rfl⟩⟩
  by_cases hrelative : IsRelative first ('\\' :: r)
  · rw [qualify_relative hsegments hs hrelative,
      qualify_relative hlonger hst ⟨hrelative.1, List.cons_ne_nil _ _⟩, qualifyLocal_append]
  · have hother : ¬ IsRelative first ('\\' :: (r ++ t)) :=
      fun hother => hrelative ⟨hother.1, List.cons_ne_nil _ _⟩
    cases himport : ns.imports.lookup (Text.fold (String.ofList first)) with
    | some full =>
      rw [qualify_imported hsegments hs hrelative himport,
        qualify_imported hlonger hst hother himport, ← List.cons_append, String.ofList_append,
        String.append_assoc]
    | none =>
      rw [qualify_local hsegments hs hrelative himport, qualify_local hlonger hst hother himport,
        qualifyLocal_append]

theorem toList_qualifyLocal (space name : String) : (qualifyLocal space name).toList =
    (if space.isEmpty then [] else space.toList ++ ['\\']) ++ name.toList := by
  unfold qualifyLocal
  split <;> simp

end Namespace

end PhpLint
