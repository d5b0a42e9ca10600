import PhpLint.Defect.Basic
import PhpLint.Proofs.Text.Octets
import PhpLint.Proofs.Text.Words

/-!
Escaped texts read back. A backslash is printable and stays as it is, so that a text can spell an
escape itself. Such a text is read as another one; every other text is read as what it was.
-/
namespace PhpLint.Defect

/-- The bytes that stand for themselves in an escaped text. -/
def isPrintable (b : UInt8) : Bool :=
  0x20 ≤ b.toNat && b.toNat < 0x7f

/-- The byte whose escape some characters begin with. -/
def escape? (s : List Char) : Option UInt8 :=
  ((List.range 256).map UInt8.ofNat).find? fun b => !isPrintable b && (escapeByte b).isPrefixOf s

/-- The bytes that an escaped text stands for. -/
def unescape : List Char → List UInt8
  | [] => []
  | c :: r =>
    match escape? (c :: r) with
    | some b => b :: unescape (r.drop 3)
    | none => UInt8.ofNat c.toNat :: unescape r
termination_by s => s.length
decreasing_by
  all_goals simp only [List.length_drop, List.length_cons]; omega

/-- A byte as a character. -/
def letter (b : UInt8) : Char :=
  Char.ofNat b.toNat

/-- Bytes in which no escape is spelled. -/
def Plain (bs : List UInt8) : Prop :=
  ∀ b, isPrintable b = false → ¬ escapeByte b <:+: bs.map letter

/-- Bytes as they are escaped. -/
abbrev escaped (bs : List UInt8) : List Char :=
  bs.flatMap escapeByte

/-! ### Single bytes -/

/-- What holds of all numbers below 256 holds of all bytes. -/
theorem forall_byte {p : UInt8 → Prop} (h : ∀ n < 256, p (UInt8.ofNat n)) (b : UInt8) : p b := by
  have := h b.toNat b.toNat_lt
  rwa [UInt8.ofNat_toNat] at this

theorem escapeByte_of_isPrintable {b : UInt8} (h : isPrintable b) : escapeByte b = [letter b] :=
  if_pos h

/-- The characters behind the backslash of an escape. -/
def isTail (c : Char) : Bool :=
  c == 'x' || c.isDigit || ('A' ≤ c && c ≤ 'F')

theorem hexDigitUpper_isTail {n : Nat} (h : n < 16) : isTail (Text.hexDigitUpper n) := by
  revert n
  decide

theorem exists_escapeByte {b : UInt8} (h : isPrintable b = false) :
    ∃ w, escapeByte b = '\\' :: w ∧ w.length = 3 ∧ ∀ c ∈ w, isTail c := by
  have hb := b.toNat_lt
  refine ⟨['x', _, _], if_neg (by simpa [isPrintable] using h), rfl, ?_⟩
  simp only [List.forall_mem_cons, List.not_mem_nil, IsEmpty.forall_iff, implies_true, and_true]
  exact ⟨by decide, hexDigitUpper_isTail (by omega), hexDigitUpper_isTail (by omega)⟩

theorem eq_of_escapeByte_prefix_cons {b : UInt8} (h : isPrintable b = false) {c : Char}
    {r : List Char} (hbegins : escapeByte b <+: c :: r) : c = '\\' := by
  obtain ⟨w, hw, -⟩ := exists_escapeByte h
  rw [hw, List.cons_prefix_cons] at hbegins
  exact hbegins.1.symm

theorem toNat_letter (b : UInt8) : (letter b).toNat = b.toNat :=
  Text.toNat_ofNat_toNat b

theorem ofNat_toNat_letter (b : UInt8) : UInt8.ofNat (letter b).toNat = b := by
  rw [toNat_letter]
  exact UInt8.ofNat_toNat

theorem letter_ofNat_toNat {c : Char} (h : c.toNat < 0x80) : letter (UInt8.ofNat c.toNat) = c := by
  unfold letter
  rw [UInt8.toNat_ofNat', Nat.mod_eq_of_lt (by omega), Char.ofNat_toNat]

theorem isPrintable_of_isTail {b : UInt8} (h : isTail (letter b)) : isPrintable b := by
  revert b
  apply forall_byte
  decide +kernel

/-- The escape of a byte spells its number. -/
theorem hexNumber?_escapeByte {b : UInt8} (h : isPrintable b = false) :
    Text.hexNumber? ((escapeByte b).drop 2) = some b.toNat := by
  revert b
  apply forall_byte
  decide +kernel

theorem escape?_eq_some {s : List Char} {b : UInt8} (h : escape? s = some b) :
    isPrintable b = false ∧ escapeByte b <+: s := by
  have := List.find?_some h
  simpa using this

theorem escape?_eq_none_iff {s : List Char} :
    escape? s = none ↔ ∀ b, isPrintable b = false → ¬ escapeByte b <+: s := by
  constructor
  · intro h b hb
    have hmem : b ∈ (List.range 256).map UInt8.ofNat :=
      List.mem_map.mpr ⟨b.toNat, List.mem_range.mpr b.toNat_lt, UInt8.ofNat_toNat⟩
    have := List.find?_eq_none.mp h b hmem
    simpa [hb] using this
  · intro h
    rw [Option.eq_none_iff_forall_ne_some]
    intro b hfound
    obtain ⟨hb, hbegins⟩ := escape?_eq_some hfound
    exact h b hb hbegins

/-- No escape begins another. -/
theorem eq_of_escapeByte_begins {b b' : UInt8} (h : isPrintable b = false)
    (h' : isPrintable b' = false) {r : List Char} (hbegins : escapeByte b' <+: escapeByte b ++ r) :
    b' = b := by
  obtain ⟨w, hw, hlength, -⟩ := exists_escapeByte h
  obtain ⟨w', hw', hlength', -⟩ := exists_escapeByte h'
  have hsize : (escapeByte b').length = (escapeByte b).length := by
    rw [hw, hw', List.length_cons, List.length_cons, hlength, hlength']
  have hsame : escapeByte b' = escapeByte b :=
    (List.prefix_of_prefix_length_le hbegins (List.prefix_append _ r) hsize.le).eq_of_length hsize
  have hnumber := hexNumber?_escapeByte h'
  rw [hsame, hexNumber?_escapeByte h] at hnumber
  exact (UInt8.toNat_inj.mp (Option.some.inj hnumber)).symm

theorem escape?_escapeByte_append {b : UInt8} (h : isPrintable b = false) (r : List Char) :
    escape? (escapeByte b ++ r) = some b := by
  cases hfound : escape? (escapeByte b ++ r) with
  | none => exact absurd (List.prefix_append _ _) (escape?_eq_none_iff.mp hfound b h)
  | some b' =>
    obtain ⟨h', hbegins⟩ := escape?_eq_some hfound
    rw [eq_of_escapeByte_begins h h' hbegins]

theorem unescape_nil : unescape [] = [] := by
  unfold unescape
  rfl

theorem unescape_escapeByte_append {b : UInt8} (h : isPrintable b = false) (r : List Char) :
    unescape (escapeByte b ++ r) = b :: unescape r := by
  have hfound := escape?_escapeByte_append h r
  obtain ⟨w, hw, hlength, -⟩ := exists_escapeByte h
  rw [hw, List.cons_append] at hfound ⊢
  rw [unescape, hfound]
  dsimp only
  rw [List.drop_left' hlength]

theorem unescape_cons {c : Char} {r : List Char} (h : escape? (c :: r) = none) :
    unescape (c :: r) = UInt8.ofNat c.toNat :: unescape r := by
  rw [unescape, h]

/-- A text is empty, begins with an escape, or begins with a character that stands for itself. -/
theorem unescape_induction {motive : List Char → Prop} (nil : motive [])
    (escape : ∀ b r, isPrintable b = false → motive r → motive (escapeByte b ++ r))
    (copy : ∀ c r, escape? (c :: r) = none → motive r → motive (c :: r)) (s : List Char) :
    motive s := by
  fun_induction unescape s with
  | case1 => exact nil
  | case2 c r b hfound ih =>
    obtain ⟨hb, rest, hrest⟩ := escape?_eq_some hfound
    obtain ⟨w, hw, hlength, -⟩ := exists_escapeByte hb
    have hr : r = w ++ rest := by
      rw [hw] at hrest
      exact (List.cons.inj hrest).2.symm
    rw [hr, List.drop_left' hlength] at ih
    rw [← hrest]
    exact escape b rest hb ih
  | case3 c r hfound ih => exact copy c r hfound ih

/-! ### Reading back what was written -/

/-- Reading does not bring about the rest of an escape. -/
theorem prefix_of_prefix_unescape {w s : List Char} (hs : ∀ c ∈ s, c.toNat < 0x80)
    (hw : ∀ c ∈ w, isTail c) (h : w <+: (unescape s).map letter) : w <+: s := by
  induction s using unescape_induction generalizing w with
  | nil => rwa [unescape_nil] at h
  | escape b r hb ih =>
    cases w with
    | nil => exact List.nil_prefix
    | cons c w =>
      rw [unescape_escapeByte_append hb, List.map_cons, List.cons_prefix_cons] at h
      have := isPrintable_of_isTail (h.1 ▸ hw c List.mem_cons_self)
      rw [hb] at this
      contradiction
  | copy d r hnone ih =>
    cases w with
    | nil => exact List.nil_prefix
    | cons c w =>
      obtain ⟨hd, hr⟩ := List.forall_mem_cons.mp hs
      rw [unescape_cons hnone, List.map_cons, letter_ofNat_toNat hd, List.cons_prefix_cons] at h
      exact List.cons_prefix_cons.mpr ⟨h.1, ih hr (List.forall_mem_cons.mp hw).2 h.2⟩

/-- Escaping does not bring about the rest of an escape. -/
theorem prefix_of_prefix_escaped {w : List Char} {bs : List UInt8} (hw : ∀ c ∈ w, isTail c)
    (h : w <+: escaped bs) : w <+: bs.map letter := by
  induction bs generalizing w with
  | nil => exact h
  | cons b bs ih =>
    cases w with
    | nil => exact List.nil_prefix
    | cons c w =>
      obtain ⟨hc, hw⟩ := List.forall_mem_cons.mp hw
      rw [escaped, List.flatMap_cons] at h
      cases hb : isPrintable b with
      | true =>
        rw [escapeByte_of_isPrintable hb, List.singleton_append, List.cons_prefix_cons] at h
        exact List.cons_prefix_cons.mpr ⟨h.1, ih hw h.2⟩
      | false =>
        obtain ⟨w', hw', -⟩ := exists_escapeByte hb
        rw [hw', List.cons_append, List.cons_prefix_cons] at h
        rw [h.1] at hc
        contradiction

theorem Plain.of_isInfix {bs cs : List UInt8} (h : Plain cs) (hwithin : bs <:+: cs) : Plain bs :=
  fun b hb hspelled => h b hb (hspelled.trans (hwithin.map letter))

/-- What was read spells no escape any more. -/
theorem plain_unescape {s : List Char} (hs : ∀ c ∈ s, c.toNat < 0x80) : Plain (unescape s) := by
  intro u hu
  obtain ⟨w, hw, -, htail⟩ := exists_escapeByte hu
  rw [hw]
  induction s using unescape_induction with
  | nil =>
    rw [unescape_nil]
    simp
  | escape b r hb ih =>
    rw [unescape_escapeByte_append hb, List.map_cons, List.infix_cons_iff, not_or]
    refine ⟨?_, ih fun c hc => hs c (List.mem_append_right _ hc)⟩
    rw [List.cons_prefix_cons]
    rintro ⟨hslash, -⟩
    -- a backslash is printable, so that it is never read from an escape
    have := ofNat_toNat_letter b
    rw [← hslash] at this
    rw [← this] at hb
    contradiction
  | copy c r hnone ih =>
    have hr : ∀ c ∈ r, c.toNat < 0x80 := (List.forall_mem_cons.mp hs).2
    rw [unescape_cons hnone, List.map_cons, letter_ofNat_toNat (hs c List.mem_cons_self),
      List.infix_cons_iff, not_or]
    refine ⟨?_, ih hr⟩
    rw [List.cons_prefix_cons]
    rintro ⟨hslash, hbegins⟩
    apply escape?_eq_none_iff.mp hnone u hu
    rw [hw, List.cons_prefix_cons]
    exact ⟨hslash, prefix_of_prefix_unescape hr htail hbegins⟩

theorem unescape_escaped {bs : List UInt8} (h : Plain bs) : unescape (escaped bs) = bs := by
  induction bs with
  | nil => exact unescape_nil
  | cons b bs ih =>
    have ih := ih (h.of_isInfix (List.suffix_cons b bs).isInfix)
    rw [escaped, List.flatMap_cons]
    cases hb : isPrintable b with
    | false => rw [unescape_escapeByte_append hb, ih]
    | true =>
      rw [escapeByte_of_isPrintable hb, List.singleton_append]
      have hnone : escape? (letter b :: escaped bs) = none := by
        rw [escape?_eq_none_iff]
        intro u hu hbegins
        obtain ⟨w, hw, -, htail⟩ := exists_escapeByte hu
        rw [hw, List.cons_prefix_cons] at hbegins
        apply h u hu
        rw [hw, List.map_cons, hbegins.1]
        exact (List.cons_prefix_cons.mpr
          ⟨rfl, prefix_of_prefix_escaped htail hbegins.2⟩).isInfix
      rw [unescape_cons hnone, ofNat_toNat_letter, ih]

/-- No escape reaches into what cannot be the rest of one. -/
theorem escape?_append_eq_none {c : Char} {s r : List Char} (hnone : escape? (c :: s) = none)
    (h : ∀ d ∈ r.head?, isTail d = false) : escape? (c :: s ++ r) = none := by
  rw [escape?_eq_none_iff] at hnone ⊢
  intro u hu hbegins
  obtain ⟨w, hw, -, htail⟩ := exists_escapeByte hu
  rcases List.prefix_or_prefix_of_prefix hbegins (List.prefix_append (c :: s) r) with
    hinside | ⟨rest, hrest⟩
  · exact hnone u hu hinside
  · -- the escape would take in the first character of what follows
    cases rest with
    | nil =>
      rw [List.append_nil] at hrest
      exact hnone u hu (hrest ▸ List.prefix_rfl)
    | cons d rest =>
      rw [← hrest, List.prefix_append_right_inj] at hbegins
      obtain ⟨r', rfl⟩ := hbegins
      have hd : d ∈ w := by
        rw [hw, List.cons_append, List.cons.injEq] at hrest
        exact hrest.2 ▸ List.mem_append_right s List.mem_cons_self
      have := h d rfl
      rw [htail d hd] at this
      contradiction

theorem unescape_append {s r : List Char} (h : ∀ c ∈ r.head?, isTail c = false) :
    unescape (s ++ r) = unescape s ++ unescape r := by
  induction s using unescape_induction with
  | nil => rw [unescape_nil, List.nil_append, List.nil_append]
  | escape b s hb ih =>
    rw [List.append_assoc, unescape_escapeByte_append hb, unescape_escapeByte_append hb, ih,
      List.cons_append]
  | copy c s hnone ih =>
    have hbehind := escape?_append_eq_none hnone h
    rw [List.cons_append] at hbehind ⊢
    rw [unescape_cons hbehind, unescape_cons hnone, ih, List.cons_append]

/-! ### Blanks -/

/-- The white space that signatures reduce to single blanks. -/
def isGap (c : Char) : Bool :=
  c == ' ' || c == '\t' || c == '\n' || c == '\r'

abbrev isGapByte (b : UInt8) : Bool :=
  isGap (letter b)

theorem eq_of_isGapByte {b : UInt8} (h : isGapByte b) : b = 0x20 ∨ b = 9 ∨ b = 10 ∨ b = 13 := by
  revert b
  apply forall_byte
  decide +kernel

/-- A character that begins no escape of a blank stays. -/
theorem unescapeBlanks_cons {c : Char} {r : List Char}
    (h : ∀ b, isPrintable b = false → isGapByte b → ¬ escapeByte b <+: c :: r) :
    unescapeBlanks (c :: r) = c :: unescapeBlanks r := by
  rw [unescapeBlanks.eq_def]
  split
  · rename_i d r' heq
    obtain ⟨rfl, rfl⟩ := List.cons.inj heq
    have hkept : (d == 'A' || d == 'D' || d == '9') = false := by
      by_contra hblank
      simp only [Bool.not_eq_false, Bool.or_eq_true, beq_iff_eq] at hblank
      rcases hblank with (rfl | rfl) | rfl
      · exact h 10 rfl rfl ⟨r', rfl⟩
      · exact h 13 rfl rfl ⟨r', rfl⟩
      · exact h 9 rfl rfl ⟨r', rfl⟩
    rw [hkept, if_neg Bool.false_ne_true]
    simp [unescapeBlanks]
  · rename_i heq
    obtain ⟨rfl, rfl⟩ := List.cons.inj heq
    rfl
  · contradiction

theorem unescapeBlanks_append_of_tail {w : List Char} (hw : ∀ c ∈ w, isTail c) (r : List Char) :
    unescapeBlanks (w ++ r) = w ++ unescapeBlanks r := by
  induction w with
  | nil => rfl
  | cons c w ih =>
    obtain ⟨hc, hw⟩ := List.forall_mem_cons.mp hw
    rw [List.cons_append, unescapeBlanks_cons, ih hw, List.cons_append]
    intro b hb _ hbegins
    rw [eq_of_escapeByte_prefix_cons hb hbegins] at hc
    contradiction

/-- A byte as it is escaped, or a blank in its place. -/
def blanked (b : UInt8) : List Char :=
  if isGapByte b then [' '] else escapeByte b

theorem unescapeBlanks_escapeByte_append {b : UInt8} (h : isPrintable b = false) (r : List Char) :
    unescapeBlanks (escapeByte b ++ r) = blanked b ++ unescapeBlanks r := by
  unfold blanked
  split_ifs with hgap
  · rcases eq_of_isGapByte hgap with rfl | rfl | rfl | rfl
    · contradiction
    all_goals simp [escapeByte, Text.hexDigitUpper, unescapeBlanks]
  · obtain ⟨w, hw, -, htail⟩ := exists_escapeByte h
    have hslash : unescapeBlanks ('\\' :: (w ++ r)) = '\\' :: unescapeBlanks (w ++ r) := by
      apply unescapeBlanks_cons
      intro u hu hblank hbegins
      rw [← List.cons_append, ← hw] at hbegins
      exact hgap (eq_of_escapeByte_begins h hu hbegins ▸ hblank)
    rw [hw, List.cons_append, hslash, unescapeBlanks_append_of_tail htail, List.cons_append]

/-- The characters of an escaped text. -/
def IsEscaped (s : List Char) : Prop :=
  ∀ c ∈ s, 0x20 ≤ c.toNat ∧ c.toNat < 0x7f

theorem isEscaped_escaped (bs : List UInt8) : IsEscaped (escaped bs) := by
  intro c hc
  obtain ⟨b, -, hb⟩ := List.mem_flatMap.mp hc
  have hall (b : UInt8) : (escapeByte b).all fun c => 0x20 ≤ c.toNat && c.toNat < 0x7f := by
    revert b
    apply forall_byte
    decide +kernel
  simpa using List.all_eq_true.mp (hall b) c hb

theorem unescapeBlanks_eq {s : List Char} (h : IsEscaped s) :
    unescapeBlanks s = (unescape s).flatMap blanked := by
  induction s using unescape_induction with
  | nil =>
    rw [unescape_nil]
    rfl
  | escape b r hb ih =>
    rw [unescapeBlanks_escapeByte_append hb, unescape_escapeByte_append hb, List.flatMap_cons,
      ih fun c hc => h c (List.mem_append_right _ hc)]
  | copy c r hnone ih =>
    obtain ⟨hc, hr⟩ := List.forall_mem_cons.mp h
    have hletter := letter_ofNat_toNat (hc.2.trans (by decide))
    have hblanked : blanked (UInt8.ofNat c.toNat) = [c] := by
      unfold blanked
      split_ifs with hgap
      · simp only [isGapByte, hletter, isGap, Bool.or_eq_true, beq_iff_eq] at hgap
        rcases hgap with ((rfl | rfl) | rfl) | rfl
        · rfl
        all_goals simp at hc
      · rw [escapeByte_of_isPrintable, hletter]
        unfold isPrintable
        rw [← toNat_letter, hletter]
        simpa using hc
    have hkeep : unescapeBlanks (c :: r) = c :: unescapeBlanks r :=
      unescapeBlanks_cons fun b hb _ => escape?_eq_none_iff.mp hnone b hb
    rw [hkeep, unescape_cons hnone, List.flatMap_cons, hblanked, ih hr, List.singleton_append]

/-- The words of an escaped text are those of what it is read as. -/
theorem words_unescapeBlanks {s : List Char} (h : IsEscaped s) :
    Text.words (unescapeBlanks s) = (Text.piecesBy isGapByte (unescape s)).map escaped := by
  have hsep (b : UInt8) (hb : isGapByte b) : ∃ c, blanked b = [c] ∧ Text.isWhiteSpace c :=
    ⟨' ', if_pos hb, rfl⟩
  have hother (b : UInt8) (hb : isGapByte b = false) :
      blanked b ≠ [] ∧ ∀ c ∈ blanked b, Text.isWhiteSpace c = false := by
    have hall : ∀ b, isGapByte b = false →
        !(blanked b).isEmpty && (blanked b).all (!Text.isWhiteSpace ·) :=
      forall_byte (by decide +kernel)
    simpa using hall b hb
  rw [Text.words_eq_piecesBy, unescapeBlanks_eq h, Text.piecesBy_flatMap hsep hother]
  apply List.map_congr_left
  intro w hw
  apply List.flatMap_congr
  intro b hb
  have := (Text.mem_piecesBy hw).2.2 b hb
  unfold blanked
  rw [this, if_neg Bool.false_ne_true]

/-- A word that was read is known by what it is escaped to. -/
theorem unescape_escaped_word {s : List Char} (h : IsEscaped s) {w : List UInt8}
    (hw : w ∈ Text.piecesBy isGapByte (unescape s)) :
    unescape (escaped w) = w := by
  apply unescape_escaped
  apply (plain_unescape fun c hc => (h c hc).2.trans (by decide)).of_isInfix
  exact (Text.mem_piecesBy hw).2.1

theorem unescape_append_gap {b : UInt8} (h : isGapByte b) (s r : List Char) :
    unescape (s ++ (escapeByte b ++ r)) = unescape s ++ b :: unescape r := by
  cases hb : isPrintable b with
  | false =>
    obtain ⟨w, hw, -⟩ := exists_escapeByte hb
    have hhead : ∀ c ∈ (escapeByte b ++ r).head?, isTail c = false := by
      rw [hw]
      rintro c ⟨⟩
      rfl
    rw [unescape_append hhead, unescape_escapeByte_append hb]
  | true =>
    have hblank : b = 0x20 := by
      rcases eq_of_isGapByte h with rfl | rfl | rfl | rfl
      · rfl
      all_goals contradiction
    have hnone : escape? (' ' :: r) = none := by
      rw [escape?_eq_none_iff]
      intro u hu hbegins
      exact absurd (eq_of_escapeByte_prefix_cons hu hbegins) (by decide)
    subst hblank
    change unescape (s ++ ' ' :: r) = _
    have hhead : ∀ c ∈ (' ' :: r).head?, isTail c = false := by
      rintro c ⟨⟩
      rfl
    rw [unescape_append hhead, unescape_cons hnone]
    rfl

/-- White space ends every word that is read, so that each is read alone. -/
theorem piecesBy_unescape_escaped (bs : List UInt8) :
    Text.piecesBy isGapByte (unescape (escaped bs)) =
      (Text.piecesBy isGapByte bs).flatMap fun w =>
        Text.piecesBy isGapByte (unescape (escaped w)) := by
  have hword (xs : List UInt8) (hfree : ∀ b ∈ xs, isGapByte b = false) :
      Text.piecesBy isGapByte (unescape (escaped xs)) =
        (Text.piecesBy isGapByte xs).flatMap fun w =>
          Text.piecesBy isGapByte (unescape (escaped w)) := by
    rw [Text.piecesBy_of_not hfree]
    split_ifs with hnil
    · rw [hnil, escaped, List.flatMap_nil, unescape_nil]
      rfl
    · rw [List.flatMap_singleton]
  induction bs using Text.separators_induction (p := isGapByte) with
  | free xs hfree => exact hword xs hfree
  | separated xs gap ys hfree hgap ih =>
    have hread : unescape (escaped (xs ++ gap :: ys)) =
        unescape (escaped xs) ++ gap :: unescape (escaped ys) := by
      rw [escaped, List.flatMap_append, List.flatMap_cons, unescape_append_gap hgap]
    rw [hread, Text.piecesBy_append_cons hgap, Text.piecesBy_append_cons hgap,
      List.flatMap_append, ← ih, ← hword xs hfree]

end PhpLint.Defect
