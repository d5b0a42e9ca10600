import PhpLint.Proofs.Except
import PhpLint.Proofs.Text.Pieces
import PhpLint.Revision.Basic

/-!
Revisions as texts. What is read is read again from its own text, a name is never taken for an
option, and two texts with a colon between them are split where they were joined.
-/
namespace PhpLint

/-- A text with something in it and without white space around it. -/
structure Text.IsSolid (s : List Char) : Prop where
  ne_nil : s ≠ []
  first : ∀ c ∈ s.head?, isWhiteSpace c = false
  last : ∀ c ∈ s.getLast?, isWhiteSpace c = false

theorem Text.IsSolid.join {s t : List Char} (hs : IsSolid s) (ht : IsSolid t) (c : Char) :
    IsSolid (s ++ c :: t) := by
  refine ⟨by simp, ?_, ?_⟩
  · rw [List.head?_append_of_ne_nil _ hs.ne_nil]
    exact hs.first
  · rw [List.append_cons, List.getLast?_append_of_ne_nil _ ht.ne_nil]
    exact ht.last

theorem Text.IsSolid.trim_eq {s : String} (h : IsSolid s.toList) : trim s = s := by
  rw [← String.toList_inj, toList_trim, trimBy_of_ends h.first h.last]

theorem Text.isSolid_trim {s : String} (h : trim s ≠ "") : IsSolid (trim s).toList := by
  obtain ⟨-, -, -, -, hfirst, hlast⟩ := exists_append_trimBy isWhiteSpace s.toList
  rw [← toList_trim] at hfirst hlast
  refine ⟨?_, hfirst, hlast⟩
  rwa [ne_eq, String.toList_eq_nil_iff]

namespace Revision

variable {s t : String} {r a b : Revision}

/-- A name that no command takes for an option. -/
structure IsName (name : String) : Prop where
  solid : Text.IsSolid name.toList
  not_option : name.toList.head? ≠ some '-'

/-- A revision that is read from its own text, and whose name, if it has one, is no option. -/
structure Legible (r : Revision) : Prop where
  parse_text : parse r.text = .ok r
  isName : ∀ name, r = .id name → IsName name

theorem parse_trim : parse (Text.trim s) = .ok r ↔ parse s = .ok r := by
  unfold parse
  rw [Text.trim_trim]
  split
  · exact iff_of_false nofun nofun
  all_goals exact Iff.rfl

/-- What is read is one of the symbols, or the text itself as a name. -/
theorem text_of_parse (h : parse s = .ok r) :
    (r = .workingTree ∨ r = .staged ∨ r = .head) ∨
      r = .id (Text.trim s) ∧ IsName (Text.trim s) := by
  unfold parse at h
  split at h
  case h_1 => cases h
  case h_2 => cases h; simp
  case h_3 => cases h; simp
  case h_4 => cases h; simp
  case h_5 => cases h; simp
  case h_6 hempty _ _ _ _ =>
    split_ifs at h with hoption
    cases h
    exact .inr ⟨rfl, Text.isSolid_trim hempty, by simpa using hoption⟩

theorem legible_of_parse (h : parse s = .ok r) : Legible r := by
  have hname : ∀ name, r = .id name → IsName name := by
    rintro name rfl
    rcases text_of_parse h with (h | h | h) | ⟨h, hname⟩
    · cases h
    · cases h
    · cases h
    · cases h
      exact hname
  refine ⟨?_, hname⟩
  rcases text_of_parse h with (rfl | rfl | rfl) | ⟨rfl, -⟩
  · decide +kernel
  · decide +kernel
  · decide +kernel
  · exact parse_trim.mpr h

theorem Legible.isSolid (h : Legible r) : Text.IsSolid r.text.toList := by
  cases r with
  | workingTree => exact ⟨by decide, by simp [text]; decide, by simp [text]; decide⟩
  | staged => exact ⟨by decide, by simp [text]; decide, by simp [text]; decide⟩
  | head => exact ⟨by decide, by simp [text]; decide, by simp [text]; decide⟩
  | id name => exact (h.isName name rfl).solid

/-- Where a colon can only begin a text, it can only begin the text of what is read. -/
theorem colon_not_mem_tail_text (h : parse s = .ok r) (hs : ':' ∉ s.toList.tail) :
    ':' ∉ r.text.toList.tail := by
  rcases text_of_parse h with (rfl | rfl | rfl) | ⟨rfl, -⟩
  · decide
  · decide
  · decide
  · obtain ⟨before, after, heq, -⟩ := Text.exists_append_trimBy Text.isWhiteSpace s.toList
    rw [← Text.toList_trim] at heq
    change ':' ∉ (Text.trim s).toList.tail
    intro hmem
    apply hs
    rw [heq]
    cases before with
    | nil =>
      rw [List.nil_append,
        List.tail_append_of_ne_nil (List.ne_nil_of_mem (List.mem_of_mem_tail hmem))]
      exact List.mem_append_left _ hmem
    | cons c before =>
      exact List.mem_append_left _ (List.mem_append_right before (List.mem_of_mem_tail hmem))

end Revision

namespace RevisionSpec

variable {s : String} {spec : RevisionSpec} {first last : List Char}

/-- Every revision that is named. -/
def revisions : RevisionSpec → List Revision
  | .single revision => [revision]
  | .range first last => [first, last]

def text : RevisionSpec → String
  | .single revision => revision.text
  | .range first last => first.text ++ ":" ++ last.text

theorem splitColon_eq_none_iff {s : List Char} : splitColon s = none ↔ ':' ∉ s.tail := by
  cases s with
  | nil => simp [splitColon]
  | cons c r => simp [splitColon]

theorem splitColon_append (hne : first ≠ []) (h : ':' ∉ first.tail) (last : List Char) :
    splitColon (first ++ ':' :: last) = some (first, last) := by
  cases first with
  | nil => contradiction
  | cons c r =>
    have hother : ∀ d ∈ r, (d != ':') = true := by
      intro d hd
      rw [bne_iff_ne]
      rintro rfl
      exact h hd
    rw [List.cons_append, splitColon, if_pos (by simp),
      List.takeWhile_append_of_pos hother, List.dropWhile_append_of_pos hother]
    simp

theorem splitColon_eq_some {s : List Char} (h : splitColon s = some (first, last)) :
    ':' ∉ first.tail := by
  cases s with
  | nil => cases h
  | cons c r =>
    rw [splitColon] at h
    split_ifs at h
    cases h
    intro hmem
    simpa using List.mem_takeWhile_imp hmem

theorem parse_range {a b : Revision} (ha : a.Legible) (hb : b.Legible)
    (hcolon : ':' ∉ a.text.toList.tail) :
    parse (a.text ++ ":" ++ b.text) = .ok (.range a b) := by
  have htext : (a.text ++ ":" ++ b.text).toList = a.text.toList ++ ':' :: b.text.toList := by
    simp
  have htrim : Text.trim (a.text ++ ":" ++ b.text) = a.text ++ ":" ++ b.text := by
    apply Text.IsSolid.trim_eq
    rw [htext]
    exact ha.isSolid.join hb.isSolid ':'
  unfold parse
  rw [htrim, if_neg (by simp), htext, splitColon_append ha.isSolid.ne_nil hcolon]
  simp only [String.ofList_toList, ha.parse_text, hb.parse_text]
  rfl

theorem parse_single {a : Revision} (ha : a.Legible) (hcolon : ':' ∉ a.text.toList.tail) :
    parse a.text = .ok (.single a) := by
  unfold parse
  rw [ha.isSolid.trim_eq, if_neg (by simpa using ha.isSolid.ne_nil),
    splitColon_eq_none_iff.mpr hcolon]
  simp only [ha.parse_text]
  rfl

/-- What is read was read from its sides; only the last one can hold a colon that does not begin
it. -/
theorem sides_of_parse (h : parse s = .ok spec) :
    (∃ t a, Revision.parse t = .ok a ∧ ':' ∉ t.toList.tail ∧ spec = .single a) ∨
    ∃ t t' a b, Revision.parse t = .ok a ∧ Revision.parse t' = .ok b ∧ ':' ∉ t.toList.tail ∧
      spec = .range a b := by
  unfold parse at h
  dsimp only at h
  split_ifs at h with hempty
  cases hsplit : splitColon (Text.trim s).toList with
  | none =>
    rw [hsplit] at h
    cases hread : Revision.parse (Text.trim s) with
    | error e => rw [hread] at h; cases h
    | ok a =>
      rw [hread] at h
      cases h
      exact .inl ⟨_, a, hread, splitColon_eq_none_iff.mp hsplit, rfl⟩
  | some sides =>
    obtain ⟨first, last⟩ := sides
    rw [hsplit] at h
    obtain ⟨a, hfirst, h⟩ := except_bind_eq_ok.mp h
    obtain ⟨b, hlast, h⟩ := except_bind_eq_ok.mp h
    cases h
    refine .inr ⟨_, _, a, b, hfirst, hlast, ?_, rfl⟩
    rw [String.toList_ofList]
    exact splitColon_eq_some hsplit

/-- The first side of a range holds no colon but one that begins it. -/
theorem colon_not_mem_of_parse {a : Revision} (h : parse s = .ok spec)
    (ha : spec.revisions.head? = some a) : ':' ∉ a.text.toList.tail := by
  rcases sides_of_parse h with ⟨t, a', ha', hcolon, rfl⟩ | ⟨t, t', a', b, ha', -, hcolon, rfl⟩
  all_goals
    cases ha
    exact Revision.colon_not_mem_tail_text ha' hcolon

/--
Every revision that is read is read again from its own text, and its name is no option; so are the
sides of what a run looks at, which is read again from its own text as a whole. Two revisions with a
colon between them are read as a range, and the first of them alone as itself, just if the first one
holds no colon but one that begins it.
-/
theorem parse_text_of_parse :
    (∀ s r, Revision.parse s = .ok r → r.Legible) ∧
    (∀ s spec, parse s = .ok spec →
      (∀ r ∈ spec.revisions, r.Legible) ∧ parse spec.text = .ok spec) ∧
    ∀ s t a b, Revision.parse s = .ok a → Revision.parse t = .ok b →
      (parse (a.text ++ ":" ++ b.text) = .ok (.range a b) ↔ ':' ∉ a.text.toList.tail) ∧
      (parse a.text = .ok (.single a) ↔ ':' ∉ a.text.toList.tail) := by
  refine ⟨fun s r h => Revision.legible_of_parse h, ?_, ?_⟩
  · intro s spec h
    rcases sides_of_parse h with ⟨t, a, ha, hcolon, rfl⟩ | ⟨t, t', a, b, ha, hb, hcolon, rfl⟩
    · have hlegible := Revision.legible_of_parse ha
      have htail := Revision.colon_not_mem_tail_text ha hcolon
      exact ⟨by simpa [revisions] using hlegible, parse_single hlegible htail⟩
    · have hfirst := Revision.legible_of_parse ha
      have hlast := Revision.legible_of_parse hb
      have htail := Revision.colon_not_mem_tail_text ha hcolon
      exact ⟨by simp [revisions, hfirst, hlast], parse_range hfirst hlast htail⟩
  · intro s t a b hs ht
    have ha := Revision.legible_of_parse hs
    have hb := Revision.legible_of_parse ht
    exact ⟨⟨fun h => colon_not_mem_of_parse h rfl, parse_range ha hb⟩,
      ⟨fun h => colon_not_mem_of_parse h rfl, parse_single ha⟩⟩

/-- A colon that begins a revision does not separate it from the next one, and a colon inside a name
is no obstacle in the last revision only. -/
theorem parse_text_of_parse_colons :
    (Revision.parse "\tv1:x " = .ok (.id "v1:x") ∧ (Revision.id "v1:x").Legible) ∧
    (parse " :index : HEAD" = .ok (.range .staged .head) ∧
      parse ":cached:HEAD" = .ok (.range .staged .head)) ∧
    Revision.parse ":disk" = .ok .workingTree ∧
      parse ":disk:v1:x" = .ok (.range .workingTree (.id "v1:x")) ∧
      parse "v1:x::disk" ≠ .ok (.range (.id "v1:x") .workingTree) := by
  have hname : Revision.parse "\tv1:x " = .ok (.id "v1:x") := by decide +kernel
  have hdisk : Revision.parse ":disk" = .ok .workingTree := by decide +kernel
  have hrange : parse " :index : HEAD" = .ok (.range .staged .head) := by decide +kernel
  refine ⟨⟨hname, parse_text_of_parse.1 _ _ hname⟩,
    ⟨hrange, (parse_text_of_parse.2.1 _ _ hrange).2⟩, hdisk, ?_, ?_⟩
  · exact (parse_text_of_parse.2.2 _ _ _ _ hdisk hname).1.mpr (by decide)
  · exact (parse_text_of_parse.2.2 _ _ _ _ hname hdisk).1.not.mpr (by decide)

end RevisionSpec

end PhpLint
