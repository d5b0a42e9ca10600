import PhpLint.Proofs.Defect.Escape

/-!
What defects with the same signature have in common. Signatures leave out how much white space a
text holds and which. They leave out too whether a byte stands in the text or is spelled there.
-/
namespace PhpLint.Defect

/-- A text without white space at its ends and with single blanks inside. -/
def collapse (s : String) : String :=
  Text.joined (Text.piecesBy isGap s.toList)

/-- The words of a text whose escapes are read as the bytes that they spell. -/
def meaning (s : String) : List (List UInt8) :=
  Text.piecesBy isGapByte (unescape (escapeText s).toList)

/-- A text in which what would be escaped is spelled already. -/
def SpellsEscape (s : String) : Prop :=
  ∃ b, isPrintable b = false ∧ escapeByte b <:+: s.toList

/-- A defect that was made from a text, in any context. -/
inductive Of : Defect → String → Prop
  | detached (fileName : String) (line : Nat) (text code : String) (severity : Severity)
      (message : String) (inClass inMethod : Option String) :
      Of { Defect.detached fileName line text code severity message with inClass, inMethod } text
  | ofToken (file : SourceFile) (i : Nat) (code : String) (severity : Severity) (message : String)
      {token : Token} (h : file.tokens[i]? = some token) :
      Of (Defect.ofToken file i code severity message) token.text

theorem Of.tokenText_eq {d : Defect} {s : String} (h : Of d s) : d.tokenText = escapeText s := by
  cases h with
  | detached => rfl
  | ofToken file i code severity message h =>
    unfold Defect.ofToken
    rw [h]
    rfl

/-! ### Texts and their bytes -/

theorem toList_escapeText (s : String) : (escapeText s).toList = escaped s.toUTF8.toList :=
  String.toList_ofList

/-- Blanks and line ends are single bytes, and no other character has such a byte. -/
theorem piecesBy_toUTF8 (s : String) : Text.piecesBy isGapByte s.toUTF8.toList =
    (Text.piecesBy isGap s.toList).map (·.flatMap String.utf8EncodeChar) := by
  rw [Text.toList_toUTF8]
  apply Text.piecesBy_flatMap
  · intro c hc
    have hascii : c.toNat < 0x80 := by
      simp only [isGap, Bool.or_eq_true, beq_iff_eq] at hc
      rcases hc with ((rfl | rfl) | rfl) | rfl <;> decide
    refine ⟨_, Text.utf8EncodeChar_of_ascii hascii, ?_⟩
    rw [isGapByte, letter_ofNat_toNat hascii]
    exact hc
  · intro c hc
    constructor
    · intro hnil
      have hsize : c.utf8Size = 0 := by
        rw [← String.length_utf8EncodeChar, hnil]
        rfl
      exact absurd hsize c.utf8Size_pos.ne'
    · intro b hb
      by_cases hascii : c.toNat < 0x80
      · rw [Text.utf8EncodeChar_of_ascii hascii, List.mem_singleton] at hb
        rw [hb, isGapByte, letter_ofNat_toNat hascii]
        exact hc
      · have hle := Text.le_of_mem_utf8EncodeChar (Nat.le_of_not_lt hascii) hb
        rw [Bool.eq_false_iff]
        intro hgap
        rcases eq_of_isGapByte hgap with rfl | rfl | rfl | rfl <;> simp at hle

theorem plain_toUTF8 {s : String} (h : ¬ SpellsEscape s) : Plain s.toUTF8.toList := by
  intro b hb hspelled
  apply h
  refine ⟨b, hb, ?_⟩
  obtain ⟨w, hw, -⟩ := exists_escapeByte hb
  have hascii : ∀ c ∈ escapeByte b, c.toNat < 0x80 := fun c hc => by
    have := isEscaped_escaped [b] c (by simpa [escaped] using hc)
    omega
  have hoctets : s.toUTF8.toList.map letter = Text.octets s.toList := Text.map_toUTF8 s
  rw [hoctets] at hspelled
  rw [hw] at hspelled hascii ⊢
  exact Text.infix_of_infix_octets hascii hspelled

theorem not_spellsEscape_of_not_mem {s : String} (h : '\\' ∉ s.toList) : ¬ SpellsEscape s := by
  rintro ⟨b, hb, hspelled⟩
  obtain ⟨w, hw, -⟩ := exists_escapeByte hb
  exact h (hspelled.subset (hw ▸ List.mem_cons_self))

/-! ### What is the same in texts -/

theorem meaning_of_not_spellsEscape {s : String} (h : ¬ SpellsEscape s) :
    meaning s = (Text.piecesBy isGap s.toList).map (·.flatMap String.utf8EncodeChar) := by
  unfold meaning
  rw [toList_escapeText, unescape_escaped (plain_toUTF8 h), piecesBy_toUTF8]

theorem collapse_eq_iff {s t : String} :
    collapse s = collapse t ↔ Text.piecesBy isGap s.toList = Text.piecesBy isGap t.toList :=
  Text.joined_piecesBy_inj rfl

theorem meaning_eq_of_collapse_eq {s t : String} (h : collapse s = collapse t) :
    meaning s = meaning t := by
  unfold meaning
  rw [toList_escapeText, toList_escapeText, piecesBy_unescape_escaped,
    piecesBy_unescape_escaped t.toUTF8.toList, piecesBy_toUTF8, piecesBy_toUTF8,
    collapse_eq_iff.mp h]

theorem meaning_eq_iff_collapse_eq {s t : String} (hs : ¬ SpellsEscape s) (ht : ¬ SpellsEscape t) :
    meaning s = meaning t ↔ collapse s = collapse t := by
  refine ⟨fun h => ?_, meaning_eq_of_collapse_eq⟩
  rw [meaning_of_not_spellsEscape hs, meaning_of_not_spellsEscape ht] at h
  exact collapse_eq_iff.mpr
    (List.map_injective_iff.mpr (fun _ _ => Text.flatMap_utf8EncodeChar_inj.mp) h)

/-! ### Signatures -/

theorem isEscaped_escapeText (s : String) : IsEscaped (escapeText s).toList := by
  rw [toList_escapeText]
  exact isEscaped_escaped _

theorem normalizeText_eq_iff {s t : String} :
    normalizeText (escapeText s) = normalizeText (escapeText t) ↔ meaning s = meaning t := by
  have hwords : normalizeText (escapeText s) = normalizeText (escapeText t) ↔
      (meaning s).map escaped = (meaning t).map escaped := by
    unfold normalizeText meaning
    rw [← words_unescapeBlanks (isEscaped_escapeText s),
      ← words_unescapeBlanks (isEscaped_escapeText t), Text.words_eq_piecesBy,
      Text.words_eq_piecesBy]
    exact Text.joined_piecesBy_inj rfl
  have hread (s : String) : ((meaning s).map escaped).map unescape = meaning s := by
    have hword : ∀ w ∈ meaning s, (unescape ∘ escaped) w = id w :=
      fun w hw => unescape_escaped_word (isEscaped_escapeText s) hw
    rw [List.map_map, List.map_congr_left hword, List.map_id]
  rw [hwords]
  constructor
  · intro h
    rw [← hread s, h, hread t]
  · exact congrArg _

/--
Defects with one code in one place have the same signature if and only if their texts have the same
words, once escapes that a text spells are read. Other white space makes no difference, and where
neither text spells an escape it is all that the texts can differ in.
-/
theorem signature_eq_iff {d d' : Defect} {s t : String} (hd : Of d s) (hd' : Of d' t)
    (hcode : d.code = d'.code) (hclass : d.inClass = d'.inClass)
    (hmethod : d.inMethod = d'.inMethod) :
    (d.signature = d'.signature ↔ meaning s = meaning t) ∧
      (collapse s = collapse t → d.signature = d'.signature) ∧
      (¬ SpellsEscape s → ¬ SpellsEscape t →
        (d.signature = d'.signature ↔ collapse s = collapse t)) := by
  have htext : d.signature = d'.signature ↔ meaning s = meaning t := by
    rw [← normalizeText_eq_iff, ← hd.tokenText_eq, ← hd'.tokenText_eq]
    unfold signature
    rw [Signature.mk.injEq, hcode, hclass, hmethod]
    simp
  refine ⟨htext, fun h => htext.mpr (meaning_eq_of_collapse_eq h), fun hs ht => ?_⟩
  rw [htext, meaning_eq_iff_collapse_eq hs ht]

theorem signature_eq_iff_line_feed :
    let a := Defect.detached "a.php" 3 "$x  =\n1" "lint-1" .warning "m"
    let b := Defect.detached "a.php" 30 "$x = 1" "lint-1" .warning "m"
    let c := Defect.detached "a.php" 3 "$y" "lint-1" .warning "m"
    a.signature = b.signature ∧ a.signature ≠ c.signature := by
  have ha := Of.detached "a.php" 3 "$x  =\n1" "lint-1" .warning "m" none none
  have hb := Of.detached "a.php" 30 "$x = 1" "lint-1" .warning "m" none none
  have hc := Of.detached "a.php" 3 "$y" "lint-1" .warning "m" none none
  have hsame : collapse "$x  =\n1" = collapse "$x = 1" := by decide
  have hother : collapse "$x  =\n1" ≠ collapse "$y" := by decide
  have hx : ¬ SpellsEscape "$x  =\n1" := not_spellsEscape_of_not_mem (by decide)
  have hy : ¬ SpellsEscape "$y" := not_spellsEscape_of_not_mem (by decide)
  refine ⟨(signature_eq_iff ha hb rfl rfl rfl).2.1 hsame, fun h => hother ?_⟩
  exact ((signature_eq_iff ha hc rfl rfl rfl).2.2 hx hy).mp h

/-- A backslash stays as it is, so that a text can spell what another one is escaped to. -/
theorem not_signature_eq_iff_collapse_eq :
    ¬ ∀ (d d' : Defect) (s t : String), Of d s → Of d' t → d.code = d'.code →
      d.inClass = d'.inClass → d.inMethod = d'.inMethod →
      (d.signature = d'.signature ↔ collapse s = collapse t) := by
  intro h
  have hd := Of.detached "a.php" 3 "a\\x0Ab" "lint-1" .warning "m" none none
  have hd' := Of.detached "a.php" 3 "a b" "lint-1" .warning "m" none none
  have hne : collapse "a\\x0Ab" ≠ collapse "a b" := by decide
  have htext : normalizeText (escapeText "a\\x0Ab") = normalizeText (escapeText "a b") := by
    unfold normalizeText
    rw [toList_escapeText, toList_escapeText, Text.toList_toUTF8, Text.toList_toUTF8]
    decide
  exact hne ((h _ _ _ _ hd hd' rfl rfl rfl).mp (congrArg (Signature.mk "lint-1" · none none) htext))

end PhpLint.Defect
