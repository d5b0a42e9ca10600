import PhpLint.Proofs.Dict
import PhpLint.Proofs.Toml.Quoted
import PhpLint.Toml.Reader

/-!
Files of sections. A file that is written section by section, with texts, switches and lists of them
as its values, is read as the table of what was written.
-/
namespace PhpLint

namespace Toml

variable {p q : Progress} {c : Char} {key name : String} {v : Value} {vs done : List Value}
  {es es' inner : Entries} {header : List String} {r : List Char}

/-! ### Pieces -/

/-- Something that is neither white space nor a comment begins with the character. -/
def Begins (c : Char) : Prop :=
  Text.isTabOrSpace c = false ∧ c ≠ '\n' ∧ c ≠ '\r' ∧ c ≠ '#'

instance (c : Char) : Decidable (Begins c) :=
  inferInstanceAs (Decidable (_ ∧ _))

theorem readFrom_cons (piece : List Char) {n : Nat} (h : p.next (c :: (piece ++ r)) = some (q, n))
    (hn : n = piece.length + 1) : readFrom p (c :: (piece ++ r)) = readFrom q r := by
  rw [readFrom, h, hn]
  dsimp only
  rw [Nat.add_sub_cancel, List.drop_left]

theorem readFrom_read (piece : List Char) (hc : Begins c) {n : Nat}
    (h : p.read (c :: (piece ++ r)) = some (q, n)) (hn : n = piece.length + 1) :
    readFrom p (c :: (piece ++ r)) = readFrom q r := by
  obtain ⟨hblank, hfeed, hreturn, hcomment⟩ := hc
  have hbreak : breakLength (c :: (piece ++ r)) = 0 := breakLength_of_ne (by simp [hfeed, hreturn])
  refine readFrom_cons piece ?_ hn
  rw [Progress.next, hblank, hbreak]
  simpa [hcomment] using h

theorem readFrom_mark (hc : Begins c) (h : p.read (c :: r) = some (q, 1)) :
    readFrom p (c :: r) = readFrom q r :=
  readFrom_read [] hc h rfl

theorem readFrom_space (p : Progress) (r : List Char) : readFrom p (' ' :: r) = readFrom p r :=
  readFrom_cons [] rfl rfl

theorem readFrom_break (h : p.breaksLines = true) (r : List Char) :
    readFrom p ('\n' :: r) = readFrom p.nextLine r := by
  refine readFrom_cons [] (n := 1) ?_ rfl
  rw [Progress.next]
  simp [Text.isTabOrSpace, breakLength, h]

/-! ### Keys -/

/-- A key that needs no quotes. -/
structure IsBare (key : String) : Prop where
  ne_nil : key.toList ≠ []
  bare : ∀ c ∈ key.toList, isBareChar c = true

instance (key : String) : Decidable (IsBare key) :=
  decidable_of_iff ((!key.toList.isEmpty && key.toList.all isBareChar) = true) <| by
    rw [Bool.and_eq_true, List.all_eq_true]
    exact ⟨fun h => ⟨by simpa using h.1, h.2⟩, fun h => ⟨by simpa using h.ne_nil, h.bare⟩⟩

theorem begins_of_isBareChar (h : isBareChar c = true) : Begins c := by
  refine ⟨?_, ?_, ?_, ?_⟩
  · unfold Text.isTabOrSpace
    rw [Bool.or_eq_false_iff, beq_eq_false_iff_ne, beq_eq_false_iff_ne]
    constructor <;> rintro rfl <;> exact absurd h (by decide)
  all_goals
    rintro rfl
    exact absurd h (by decide)

theorem keyPart?_bare (h : IsBare key) (hr : ∀ c ∈ r.head?, isBareChar c = false) :
    Progress.keyPart? (key.toList ++ r) = some (key, key.toList.length) := by
  have hrest : r.takeWhile isBareChar = [] := by
    cases r with
    | nil => rfl
    | cons c r => rw [List.takeWhile_cons_of_neg (by simp [hr c rfl])]
  have htake : (key.toList ++ r).takeWhile isBareChar = key.toList := by
    rw [List.takeWhile_append_of_pos h.bare, hrest, List.append_nil]
  have hfirst {d : Char} {t : List Char} (heq : key.toList ++ r = d :: t) :
      isBareChar d = true := by
    obtain ⟨c, cs, hkey⟩ := List.exists_cons_of_ne_nil h.ne_nil
    rw [hkey, List.cons_append] at heq
    rw [← (List.cons.inj heq).1]
    exact h.bare c (by rw [hkey]; exact List.mem_cons_self)
  unfold Progress.keyPart?
  split
  case h_1 heq => exact absurd (hfirst heq) (by decide)
  case h_2 heq => exact absurd (hfirst heq) (by decide)
  case h_3 =>
    dsimp only
    rw [htake, if_neg (by simpa using h.ne_nil), String.ofList_toList]

/-- A key is read, as the first part of a statement or of a header. -/
theorem readFrom_key (h : IsBare key) (hr : ∀ c ∈ r.head?, isBareChar c = false)
    {use : KeyUse} {wanted : Wanted}
    (hwanted : wanted = .keyPart use ∨ wanted = .statement ∧ use = .value) :
    readFrom ⟨es, header, [], [], wanted⟩ (key.toList ++ r) =
      readFrom ⟨es, header, [key], [], .keyNext use⟩ r := by
  have hread : Progress.readKeyPart ⟨es, header, [], [], wanted⟩ use (key.toList ++ r) =
      some (⟨es, header, [key], [], .keyNext use⟩, key.toList.length) := by
    unfold Progress.readKeyPart
    rw [keyPart?_bare h hr]
    rfl
  obtain ⟨c, cs, hkey⟩ := List.exists_cons_of_ne_nil h.ne_nil
  have hc : isBareChar c = true := h.bare c (by rw [hkey]; exact List.mem_cons_self)
  rw [hkey, List.cons_append] at hread ⊢
  refine readFrom_read cs (begins_of_isBareChar hc) (n := (c :: cs).length) ?_ rfl
  rw [← hread]
  rcases hwanted with rfl | ⟨rfl, rfl⟩
  · rfl
  · have hbracket : c ≠ '[' := by
      rintro rfl
      exact absurd hc (by decide)
    unfold Progress.read
    split
    case h_1 heq => exact absurd (List.cons.inj heq).1 hbracket
    case h_2 heq => exact absurd (List.cons.inj heq).1 hbracket
    case h_3 => rfl
    all_goals contradiction

/-! ### Values -/

/-- Texts and switches. -/
inductive IsScalar : Value → Prop where
  | string (s : String) : IsScalar (.string s)
  | boolean (b : Bool) : IsScalar (.boolean b)

/-- Scalars and lists of scalars. -/
inductive IsInline : Value → Prop where
  | scalar {v : Value} (h : IsScalar v) : IsInline v
  | array {vs : List Value} (h : ∀ v ∈ vs, IsScalar v) : IsInline (.array vs)

attribute [simp] IsScalar.string IsScalar.boolean IsInline.scalar IsInline.array

theorem IsScalar.exists_write (h : IsScalar v) : ∃ c cs, v.write.toList = c :: cs ∧
    (c = '"' ∨ c = '\'' ∨ c = 't' ∨ c = 'f') := by
  cases h with
  | string s =>
    obtain ⟨c, cs, hcs, hc⟩ := exists_quote s
    exact ⟨c, cs, hcs, by tauto⟩
  | boolean b =>
    cases b with
    | true => exact ⟨'t', ['r', 'u', 'e'], rfl, by simp⟩
    | false => exact ⟨'f', ['a', 'l', 's', 'e'], rfl, by simp⟩

theorem IsScalar.scalar?_write (h : IsScalar v) (hr : Ends r) :
    scalar? (v.write.toList ++ r) = some (v, v.write.toList.length) := by
  cases h with
  | string s =>
    have htext := text?_quote s hr
    obtain ⟨c, cs, hcs, hc⟩ := exists_quote s
    change scalar? ((quote s).toList ++ r) = some (.string s, (quote s).toList.length)
    rw [hcs, List.cons_append] at htext ⊢
    unfold scalar?
    dsimp only
    rw [if_pos (by simpa using hc), htext]
    rfl
  | boolean b => cases b <;> rfl

theorem IsScalar.begins (h : IsScalar v) : ∃ c cs, v.write.toList = c :: cs ∧ Begins c ∧
    c ≠ '[' ∧ c ≠ ']' ∧ c ≠ '\x7b' := by
  obtain ⟨c, cs, hcs, hc⟩ := h.exists_write
  refine ⟨c, cs, hcs, ?_⟩
  rcases hc with rfl | rfl | rfl | rfl <;> decide

/-- A scalar is read and put where a value is wanted. -/
theorem readFrom_scalar (h : IsScalar v) (hr : Ends r)
    (hwanted : p.wanted = .value ∨ p.wanted = .element) (hput : p.put v = some q) :
    readFrom p (v.write.toList ++ r) = readFrom q r := by
  have hscalar := h.scalar?_write hr
  obtain ⟨c, cs, hcs, hbegins, hopen, hclose, hbrace⟩ := h.begins
  rw [hcs, List.cons_append] at hscalar ⊢
  have hvalue : p.readValue (c :: (cs ++ r)) = some (q, cs.length + 1) := by
    unfold Progress.readValue
    split
    case h_1 heq => exact absurd (List.cons.inj heq).1 hopen
    case h_2 heq => exact absurd (List.cons.inj heq).1 hbrace
    case h_3 =>
      rw [hscalar, Option.bind_eq_bind, Option.bind_some]
      dsimp only
      rw [hput]
      rfl
  refine readFrom_read cs hbegins ?_ rfl
  rw [← hvalue]
  obtain ⟨es, header, key, containers, wanted⟩ := p
  rcases hwanted with rfl | rfl
  · rfl
  · unfold Progress.read
    split
    case h_8 heq => exact absurd (List.cons.inj heq).1 hclose
    case h_10 => rfl
    all_goals contradiction

theorem ends_of_ne {c : Char} (hdouble : c ≠ '"') (hsingle : c ≠ '\'') (r : List Char) :
    Ends (c :: r) := by
  intro d hd
  cases hd
  exact ⟨hdouble, hsingle⟩

/-- The elements of a list after the first. -/
def moreElements (vs : List Value) : List Char :=
  vs.flatMap fun v => ',' :: ' ' :: v.write.toList

theorem ends_moreElements (vs : List Value) (r : List Char) :
    Ends (moreElements vs ++ ']' :: r) := by
  cases vs with
  | nil => exact ends_of_ne (by decide) (by decide) _
  | cons v vs => exact ends_of_ne (by decide) (by decide) _

/-- The rest of a list is read up to its end, and the list is put where it belongs. -/
theorem readFrom_moreElements {key : List String} {outer : List Open} (hvs : ∀ v ∈ vs, IsScalar v)
    (hput : Progress.put ⟨es, header, key, outer, .arrayNext⟩ (.array (done.reverse ++ vs)) =
      some q) :
    readFrom ⟨es, header, key, .array done :: outer, .arrayNext⟩ (moreElements vs ++ ']' :: r) =
      readFrom q r := by
  induction vs generalizing done with
  | nil =>
    rw [List.append_nil] at hput
    refine readFrom_mark (by decide) ?_
    change (Progress.put ⟨es, header, key, outer, .arrayNext⟩ (.array done.reverse)).map (·, 1) = _
    rw [hput]
    rfl
  | cons v vs ih =>
    obtain ⟨hv, hvs⟩ := List.forall_mem_cons.mp hvs
    have hsplit : moreElements (v :: vs) ++ ']' :: r =
        ',' :: ' ' :: (v.write.toList ++ (moreElements vs ++ ']' :: r)) := by
      simp [moreElements]
    rw [hsplit, readFrom_mark (by decide) rfl, readFrom_space,
      readFrom_scalar hv (ends_moreElements vs r) (.inr rfl) rfl]
    apply ih hvs
    rwa [List.reverse_cons, List.append_assoc, List.singleton_append]

theorem writeElements_eq (vs : List Value) : writeElements vs = vs.map Value.write := by
  induction vs with
  | nil => rfl
  | cons v vs ih => rw [writeElements, ih, List.map_cons]

theorem toList_write_array_cons (v : Value) (vs : List Value) :
    (Value.array (v :: vs)).write.toList =
      '[' :: (v.write.toList ++ (moreElements vs ++ [']'])) := by
  have hmore (first : String) : (", ".intercalate (first :: vs.map Value.write)).toList =
      first.toList ++ moreElements vs := by
    induction vs generalizing first with
    | nil => simp [moreElements]
    | cons v vs ih =>
      rw [List.map_cons, String.intercalate_cons_cons, String.toList_append, String.toList_append,
        ih]
      simp [moreElements]
  rw [Value.write, writeElements_eq, List.map_cons, String.toList_append, String.toList_append,
    hmore]
  simp

/-- A value is read behind its key and put under it. -/
theorem readFrom_inline {key : List String} (h : IsInline v) (hr : Ends r)
    (hput : ∀ wanted, Progress.put ⟨es, header, key, [], wanted⟩ v = some q) :
    readFrom ⟨es, header, key, [], .value⟩ (v.write.toList ++ r) = readFrom q r := by
  cases h with
  | scalar h => exact readFrom_scalar h hr (.inl rfl) (hput _)
  | @array vs hvs =>
    have hopen (r : List Char) : readFrom ⟨es, header, key, [], .value⟩ ('[' :: r) =
        readFrom ⟨es, header, key, [.array []], .element⟩ r := readFrom_mark (by decide) rfl
    cases vs with
    | nil =>
      change readFrom _ ('[' :: ']' :: r) = _
      rw [hopen]
      refine readFrom_mark (by decide) ?_
      change (Progress.put ⟨es, header, key, [], .element⟩ (.array [])).map (·, 1) = _
      rw [hput]
      rfl
    | cons v vs =>
      obtain ⟨hv, hvs⟩ := List.forall_mem_cons.mp hvs
      rw [toList_write_array_cons, List.cons_append, hopen, List.append_assoc, List.append_assoc,
        List.singleton_append, readFrom_scalar hv (ends_moreElements vs r) (.inr rfl) rfl]
      exact readFrom_moreElements hvs (hput _)

/-! ### Lines -/

/-- A file read up to the beginning of a line. -/
def atLine (es : Entries) (header : List String) : Progress :=
  ⟨es, header, [], [], .statement⟩

theorem readFrom_blankLine (r : List Char) :
    readFrom (atLine es header) ('\n' :: r) = readFrom (atLine es header) r :=
  readFrom_break rfl r

theorem readFrom_lineEnd (r : List Char) :
    readFrom ⟨es, header, [], [], .lineEnd⟩ ('\n' :: r) = readFrom (atLine es header) r :=
  readFrom_break rfl r

/-- A header begins its table. -/
theorem readFrom_header (hname : IsBare name) (h : es.openTable [name] = some es') (r : List Char) :
    readFrom (atLine es header) ('[' :: (name.toList ++ ']' :: '\n' :: r)) =
      readFrom (atLine es' [name]) r := by
  obtain ⟨c, cs, hcs⟩ := List.exists_cons_of_ne_nil hname.ne_nil
  have hopen : Progress.read (atLine es header) ('[' :: (name.toList ++ ']' :: '\n' :: r)) =
      some (⟨es, header, [], [], .keyPart .header⟩, 1) := by
    have hbracket : c ≠ '[' := by
      rintro rfl
      have := hname.bare '[' (by rw [hcs]; exact List.mem_cons_self)
      exact absurd this (by decide)
    rw [hcs, List.cons_append]
    unfold atLine Progress.read
    split
    case h_1 heq => exact absurd (List.cons.inj (List.cons.inj heq).2).1 hbracket
    case h_2 => rfl
    case h_3 hsecond => exact absurd rfl (hsecond _)
    all_goals contradiction
  rw [readFrom_mark (by decide) hopen, readFrom_key hname (by simp [isBareChar]) (.inl rfl)]
  have hclose : Progress.read ⟨es, header, [name], [], .keyNext .header⟩ (']' :: '\n' :: r) =
      some (⟨es', [name], [], [], .lineEnd⟩, 1) := by
    change (Progress.beginTable _ (es.openTable [name])).map (·, 1) = _
    rw [h]
    rfl
  rw [readFrom_mark (by decide) hclose, readFrom_lineEnd]

/-- A value is put under its key in the table that was begun last. -/
theorem readFrom_entry (hkey : IsBare key) (hv : IsInline v)
    (h : es.update (Entries.addValue key v []) header = some es') (r : List Char) :
    readFrom (atLine es header)
        (key.toList ++ ' ' :: '=' :: ' ' :: (v.write.toList ++ '\n' :: r)) =
      readFrom (atLine es' header) r := by
  have hput (wanted : Wanted) : Progress.put ⟨es, header, [key], [], wanted⟩ v =
      some ⟨es', header, [], [], .lineEnd⟩ := by
    change (es.update (Entries.addValue key v []) header).bind _ = _
    rw [h]
    rfl
  rw [atLine, readFrom_key hkey (by simp [isBareChar]) (.inr ⟨rfl, rfl⟩), readFrom_space,
    readFrom_mark (by decide) rfl, readFrom_space,
    readFrom_inline hv (ends_of_ne (by decide) (by decide) r) hput, readFrom_lineEnd]

/-! ### Sections -/

/-- A section with a name and keys that need no quotes, none of them twice. -/
structure Section where
  name : String
  entries : List (String × Value)
  bare_name : IsBare name
  bare_keys : ∀ entry ∈ entries, IsBare entry.1
  nodup_keys : (entries.map (·.1)).Nodup
  inline : ∀ entry ∈ entries, IsInline entry.2

def entryLine (entry : String × Value) : String :=
  entry.1 ++ " = " ++ entry.2.write ++ "\n"

/-- A section as it is written. -/
def Section.text (s : Section) : String :=
  "[" ++ s.name ++ "]\n" ++ String.join (s.entries.map entryLine)

/-- A file of sections, with blank lines between them. -/
def fileText (sections : List Section) : String :=
  "\n".intercalate (sections.map Section.text)

/-- What a section spells. -/
def Section.value (s : Section) : Value :=
  .table (Dict.ofList s.entries)

/-- What a file of sections spells. -/
def fileTable (sections : List Section) : Table :=
  Dict.ofList (sections.map fun s => (s.name, s.value))

/-- The entries of a table while it is read, the last one first. -/
def readEntries (entries : List (String × Value)) : Entries :=
  (entries.map fun entry => (entry.1, Entry.value entry.2)).reverse

theorem put_of_forall_ne {e : Entry} (h : ∀ old ∈ es, old.1 ≠ key) :
    es.put key e = (key, e) :: es := by
  unfold Entries.put
  rw [List.filter_eq_self.mpr fun old hold => bne_iff_ne.mpr (h old hold)]

theorem lookup_of_forall_ne (h : ∀ old ∈ es, old.1 ≠ key) : List.lookup key es = none := by
  rw [List.lookup_eq_none_iff]
  intro old hold
  exact bne_iff_ne.mpr (h old hold).symm

theorem openTable_of_forall_ne (h : ∀ old ∈ es, old.1 ≠ name) :
    es.openTable [name] = some ((name, .table .header []) :: es) := by
  unfold Entries.openTable Entries.atHeader
  rw [lookup_of_forall_ne h, Option.map_some, put_of_forall_ne h]

/-- A new key of the table that was begun last. -/
theorem update_addValue (hkey : ∀ old ∈ inner, old.1 ≠ key) (hname : ∀ old ∈ es, old.1 ≠ name)
    (v : Value) :
    Entries.update (Entries.addValue key v []) [name] ((name, .table .header inner) :: es) =
      some ((name, .table .header ((key, .value v) :: inner)) :: es) := by
  have hadd : Entries.addValue key v [] inner = some ((key, .value v) :: inner) := by
    rw [Entries.addValue, lookup_of_forall_ne hkey, put_of_forall_ne hkey]
    rfl
  unfold Entries.update Entries.atHeader
  simp only [List.isEmpty_cons, Bool.false_eq_true, if_false, List.lookup_cons_self, hadd,
    Option.map_some, Entries.put]
  rw [List.filter_cons_of_neg (by simp),
    List.filter_eq_self.mpr fun old hold => bne_iff_ne.mpr (hname old hold)]

theorem readFrom_entries (done : List (String × Value)) {entries : List (String × Value)}
    (hbare : ∀ entry ∈ entries, IsBare entry.1) (hinline : ∀ entry ∈ entries, IsInline entry.2)
    (hnodup : ((done ++ entries).map (·.1)).Nodup) (hname : ∀ old ∈ es, old.1 ≠ name)
    (r : List Char) :
    readFrom (atLine ((name, .table .header (readEntries done)) :: es) [name])
        ((String.join (entries.map entryLine)).toList ++ r) =
      readFrom (atLine ((name, .table .header (readEntries (done ++ entries))) :: es) [name])
        r := by
  induction entries generalizing done with
  | nil => rw [List.append_nil]; rfl
  | cons entry entries ih =>
    obtain ⟨key, v⟩ := entry
    obtain ⟨hkey, hbare⟩ := List.forall_mem_cons.mp hbare
    obtain ⟨hv, hinline⟩ := List.forall_mem_cons.mp hinline
    have hnew : ∀ old ∈ readEntries done, old.1 ≠ key := by
      intro old hold
      obtain ⟨entry, hentry, rfl⟩ := List.mem_map.mp (List.mem_reverse.mp hold)
      exact ne_of_nodup_map hnodup hentry
    have hsplit : (String.join (((key, v) :: entries).map entryLine)).toList ++ r =
        key.toList ++ ' ' :: '=' :: ' ' :: (v.write.toList ++ '\n' ::
          ((String.join (entries.map entryLine)).toList ++ r)) := by
      simp [entryLine]
    have hdone : (key, Entry.value v) :: readEntries done = readEntries (done ++ [(key, v)]) := by
      simp [readEntries]
    rw [hsplit, readFrom_entry hkey hv (update_addValue hnew hname v), hdone,
      ih (done ++ [(key, v)]) hbare hinline (by rwa [List.append_assoc]), List.append_assoc,
      List.singleton_append]

/-- The entry of a section that has been read. -/
def Section.entry (s : Section) : String × Entry :=
  (s.name, .table .header (readEntries s.entries))

theorem readFrom_section (s : Section) (hname : ∀ old ∈ es, old.1 ≠ s.name) (r : List Char) :
    readFrom (atLine es header) (s.text.toList ++ r) =
      readFrom (atLine (s.entry :: es) [s.name]) r := by
  have hsplit : s.text.toList ++ r = '[' :: (s.name.toList ++ ']' :: '\n' ::
      ((String.join (s.entries.map entryLine)).toList ++ r)) := by
    simp [Section.text]
  have hread := readFrom_entries [] s.bare_keys s.inline s.nodup_keys hname r
  rw [hsplit, readFrom_header s.bare_name (openTable_of_forall_ne hname)]
  exact hread

/-- More sections, each behind a blank line. -/
theorem readFrom_moreSections (done : List Section) {sections : List Section}
    (hnodup : ((done ++ sections).map Section.name).Nodup) :
    readFrom (atLine ((done.map Section.entry).reverse) header)
        (sections.flatMap fun s => '\n' :: s.text.toList) =
      some (Entries.toTable (((done ++ sections).map Section.entry).reverse)) := by
  induction sections generalizing done header with
  | nil =>
    rw [List.flatMap_nil, List.append_nil, readFrom]
    rfl
  | cons s sections ih =>
    have hnew : ∀ old ∈ (done.map Section.entry).reverse, old.1 ≠ s.name := by
      intro old hold
      obtain ⟨other, hother, rfl⟩ := List.mem_map.mp (List.mem_reverse.mp hold)
      exact ne_of_nodup_map hnodup hother
    have hdone : s.entry :: (done.map Section.entry).reverse =
        ((done ++ [s]).map Section.entry).reverse := by
      simp
    rw [List.flatMap_cons, List.cons_append, readFrom_blankLine, readFrom_section s hnew, hdone,
      ih (done ++ [s]) (by rwa [List.append_assoc]), List.append_assoc, List.singleton_append]

theorem valuesOf_eq (es : Entries) :
    valuesOf es = es.map fun entry => (entry.1, entry.2.toValue) := by
  induction es with
  | nil => rfl
  | cons entry es ih =>
    obtain ⟨key, e⟩ := entry
    rw [valuesOf, ih, List.map_cons]

theorem valuesOf_readEntries (entries : List (String × Value)) :
    valuesOf (readEntries entries) = entries.reverse := by
  rw [valuesOf_eq, readEntries, List.map_reverse, List.map_map]
  have hid : ((fun entry : String × Entry => (entry.1, entry.2.toValue)) ∘
      fun entry : String × Value => (entry.1, Entry.value entry.2)) = id := by
    funext entry
    rfl
  rw [hid, List.map_id]

theorem toTable_sections {sections : List Section} (h : (sections.map Section.name).Nodup) :
    Entries.toTable ((sections.map Section.entry).reverse) = fileTable sections := by
  have hvalue (s : Section) : s.entry.2.toValue = s.value := by
    rw [Section.entry, Entry.toValue, valuesOf_readEntries, Dict.ofList_reverse s.nodup_keys]
    rfl
  have hvalues : valuesOf ((sections.map Section.entry).reverse) =
      (sections.map fun s => (s.name, s.value)).reverse := by
    rw [valuesOf_eq, List.map_reverse, List.map_map]
    congr 2
    funext s
    exact congrArg (s.name, ·) (hvalue s)
  rw [Entries.toTable, hvalues, Dict.ofList_reverse, fileTable]
  rwa [List.map_map]

theorem mem_fileTable {sections : List Section} (h : (sections.map Section.name).Nodup)
    {entry : String × Value} :
    entry ∈ fileTable sections ↔ ∃ s ∈ sections, (s.name, s.value) = entry := by
  have hnames : ((sections.map fun s => (s.name, s.value)).map (·.1)).Nodup := by
    rwa [List.map_map]
  rw [fileTable, (Dict.perm_ofList hnames).mem_iff, List.mem_map]

theorem toList_fileText_cons (s : Section) (sections : List Section) :
    (fileText (s :: sections)).toList =
      s.text.toList ++ sections.flatMap fun s => '\n' :: s.text.toList := by
  unfold fileText
  induction sections generalizing s with
  | nil => simp
  | cons s' sections ih =>
    rw [List.map_cons, List.map_cons, String.intercalate_cons_cons, String.toList_append,
      String.toList_append, ← List.map_cons, ih]
    simp

/-- A file of sections is read as what they spell. -/
theorem parse?_fileText {sections : List Section} (h : (sections.map Section.name).Nodup) :
    parse? (fileText sections) = some (fileTable sections) := by
  rw [← toTable_sections h]
  unfold parse?
  cases sections with
  | nil =>
    change readFrom .start [] = _
    rw [readFrom]
    rfl
  | cons s sections =>
    have hread : readFrom (atLine [] []) (fileText (s :: sections)).toList =
        some (Entries.toTable (((s :: sections).map Section.entry).reverse)) := by
      rw [toList_fileText_cons, readFrom_section s (by simp)]
      exact readFrom_moreSections [s] h
    have hfirst : (fileText (s :: sections)).toList.head? = some '[' := by
      simp [toList_fileText_cons, Section.text]
    split
    case h_1 heq =>
      rw [heq] at hfirst
      exact absurd (Option.some.inj hfirst) (by decide)
    case h_2 => exact hread

end Toml

end PhpLint
