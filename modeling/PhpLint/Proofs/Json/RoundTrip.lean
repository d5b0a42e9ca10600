import PhpLint.Json.Reader
import PhpLint.Json.Writer
import PhpLint.Proofs.Text.Utf8

/-!
Reading of what was written on one line. The bytes are cut into the marks of the value, and the
marks are put together to the value with the insides of its strings as they are written.
-/
namespace PhpLint.Json

/-! ### Strings -/

/-- What a character becomes inside a string. -/
inductive Escapes (c : Char) : List Char → Prop where
  | simple {e : Char} (h : simpleEscape? e = some c) (hascii : e.toNat < 0x80) :
    Escapes c ['\\', e]
  | unit (h : c.toNat < 0x20) : Escapes c
    ['\\', 'u', '0', '0', Text.hexDigit (c.toNat / 16), Text.hexDigit (c.toNat % 16)]
  | plain (h : 0x20 ≤ c.toNat) (hquote : c ≠ '"') (hslash : c ≠ '\\') : Escapes c [c]

theorem escapes_escapeChar (c : Char) : Escapes c (escapeChar c) := by
  unfold escapeChar
  simp only [beq_iff_eq]
  split_ifs with hquote hslash hn hr ht hb hf hlow
  · exact .simple (by rw [hquote]; rfl) (by decide)
  · exact .simple (by rw [hslash]; rfl) (by decide)
  · exact .simple (by rw [hn]; rfl) (by decide)
  · exact .simple (by rw [hr]; rfl) (by decide)
  · exact .simple (by rw [ht]; rfl) (by decide)
  · exact .simple (by rw [hb]; rfl) (by decide)
  · exact .simple (by rw [hf]; rfl) (by decide)
  · exact .unit hlow
  · exact .plain (by omega) hquote hslash

private theorem hexDigit_spec : ∀ n < 16, Text.hexDigit n ≠ '"' ∧ Text.hexDigit n ≠ '\\' ∧
    (Text.hexDigit n).toNat < 0x80 := by
  decide

private theorem hexNumber?_spec : ∀ n < 0x20,
    Text.hexNumber? ['0', '0', Text.hexDigit (n / 16), Text.hexDigit (n % 16)] = some n := by
  decide

/-- The bytes between the quotes of a text. -/
def inside (s : String) : List Char :=
  Text.octets (s.toList.flatMap escapeChar)

private theorem octets_unit {c : Char} (h : c.toNat < 0x20) :
    Text.octets ['\\', 'u', '0', '0', Text.hexDigit (c.toNat / 16), Text.hexDigit (c.toNat % 16)] =
      ['\\', 'u', '0', '0', Text.hexDigit (c.toNat / 16), Text.hexDigit (c.toNat % 16)] := by
  have hfirst := hexDigit_spec (c.toNat / 16) (by omega)
  have hsecond := hexDigit_spec (c.toNat % 16) (by omega)
  apply Text.octets_of_ascii
  intro d hd
  simp only [List.mem_cons, List.not_mem_nil, or_false] at hd
  rcases hd with rfl | rfl | rfl | rfl | rfl | rfl
  · decide
  · decide
  · decide
  · decide
  · exact hfirst.2.2
  · exact hsecond.2.2

private theorem octets_simple {e : Char} (h : e.toNat < 0x80) :
    Text.octets ['\\', e] = ['\\', e] := by
  apply Text.octets_of_ascii
  intro d hd
  simp only [List.mem_cons, List.not_mem_nil, or_false] at hd
  rcases hd with rfl | rfl
  · decide
  · exact h

/-- No byte of a plain character is a control character, a quote or a backslash. -/
private theorem plain_of_mem_octets {c d : Char} (h : 0x20 ≤ c.toNat) (hquote : c ≠ '"')
    (hslash : c ≠ '\\') (hd : d ∈ Text.octets [c]) : 0x20 ≤ d.toNat ∧ d ≠ '"' ∧ d ≠ '\\' := by
  by_cases hc : c.toNat < 0x80
  · rw [Text.octets_of_ascii (by simpa using hc), List.mem_singleton] at hd
    rw [hd]
    exact ⟨h, hquote, hslash⟩
  · have hle := Text.le_of_mem_octets (by omega) hd
    refine ⟨by omega, ?_, ?_⟩
    · rintro rfl
      exact absurd hle (by decide)
    · rintro rfl
      exact absurd hle (by decide)

private theorem stringLength_plain {ds : List Char} (h : ∀ d ∈ ds, d ≠ '"' ∧ d ≠ '\\') (n : Nat)
    (r : List Char) : stringLength n (ds ++ r) = stringLength (n + ds.length) r := by
  induction ds generalizing n with
  | nil => rfl
  | cons d ds ih =>
    obtain ⟨hquote, hslash⟩ := h d List.mem_cons_self
    rw [List.cons_append, stringLength.eq_4 _ _ _ hquote (fun _ _ hd _ => hslash hd),
      ih fun d hd => h d (List.mem_cons_of_mem _ hd), List.length_cons, Nat.add_right_comm,
      Nat.add_assoc]

private theorem stringLength_escapes {c : Char} {cs : List Char} (h : Escapes c cs) (n : Nat)
    (r : List Char) :
    stringLength n (Text.octets cs ++ r) = stringLength (n + (Text.octets cs).length) r := by
  cases h with
  | simple h hascii => rw [octets_simple hascii]; rfl
  | unit h =>
    obtain ⟨hquote, hslash, _⟩ := hexDigit_spec (c.toNat / 16) (by omega)
    obtain ⟨hquote', hslash', _⟩ := hexDigit_spec (c.toNat % 16) (by omega)
    rw [octets_unit h]
    change stringLength (n + 2) (_ :: _ :: _ :: _ :: r) = _
    refine @stringLength_plain [_, _, _, _] ?_ (n + 2) r
    intro d hd
    simp only [List.mem_cons, List.not_mem_nil, or_false] at hd
    rcases hd with rfl | rfl | rfl | rfl
    · decide
    · decide
    · exact ⟨hquote, hslash⟩
    · exact ⟨hquote', hslash'⟩
  | plain h hquote hslash =>
    exact stringLength_plain (fun d hd => (plain_of_mem_octets h hquote hslash hd).2) n r

theorem stringLength_inside (s : String) (r : List Char) :
    stringLength 0 (inside s ++ '"' :: r) = some (inside s).length := by
  have hgo (cs : List Char) (n : Nat) : stringLength n
      (Text.octets (cs.flatMap escapeChar) ++ '"' :: r) =
        some (n + (Text.octets (cs.flatMap escapeChar)).length) := by
    induction cs generalizing n with
    | nil => rfl
    | cons c cs ih =>
      rw [List.flatMap_cons, Text.octets_append, List.append_assoc,
        stringLength_escapes (escapes_escapeChar c), ih, List.length_append, Nat.add_assoc]
  rw [inside, hgo, Nat.zero_add]

private theorem ne_u_of_simpleEscape? {e c : Char} (h : simpleEscape? e = some c) : e ≠ 'u' := by
  rintro rfl
  have hnone : simpleEscape? 'u' = none := rfl
  rw [hnone] at h
  contradiction

private theorem isWellFormed_plain {ds : List Char} (h : ∀ d ∈ ds, 0x20 ≤ d.toNat ∧ d ≠ '\\')
    (r : List Char) : isWellFormed (ds ++ r) = isWellFormed r := by
  induction ds with
  | nil => rfl
  | cons d ds ih =>
    obtain ⟨hle, hslash⟩ := h d List.mem_cons_self
    rw [List.cons_append, isWellFormed.eq_4 _ _ (fun _ _ _ _ _ hd _ => hslash hd)
      (fun _ _ hd _ => hslash hd), ih fun d hd => h d (List.mem_cons_of_mem _ hd)]
    simp [hle, hslash]

private theorem isWellFormed_escapes {c : Char} {cs : List Char} (h : Escapes c cs)
    (r : List Char) : isWellFormed (Text.octets cs ++ r) = isWellFormed r := by
  cases h with
  | simple h hascii =>
    rw [octets_simple hascii]
    change isWellFormed ('\\' :: _ :: r) = _
    rw [isWellFormed.eq_3 _ _ (fun _ _ _ _ _ he _ => ne_u_of_simpleEscape? h he), h,
      Option.isSome_some, Bool.true_and]
  | unit h =>
    rw [octets_unit h]
    simp only [List.cons_append, List.nil_append, isWellFormed, hexNumber?_spec c.toNat h,
      Option.isSome_some, Bool.true_and]
  | plain h hquote hslash =>
    refine isWellFormed_plain (fun d hd => ?_) r
    obtain ⟨hle, _, hne⟩ := plain_of_mem_octets h hquote hslash hd
    exact ⟨hle, hne⟩

theorem isWellFormed_inside (s : String) : isWellFormed (inside s) := by
  unfold inside
  induction s.toList with
  | nil => rfl
  | cons c cs ih =>
    rw [List.flatMap_cons, Text.octets_append, isWellFormed_escapes (escapes_escapeChar c)]
    exact ih

private theorem units?_escapes {c : Char} {cs : List Char} (h : Escapes c cs) (r : List Char) :
    units? (cs ++ r) = (units? r).map (c.toNat :: ·) := by
  cases h with
  | simple h hascii =>
    change units? ('\\' :: _ :: r) = _
    rw [units?.eq_3 _ _ (fun _ _ _ _ _ he _ => ne_u_of_simpleEscape? h he), h]
    cases units? r <;> rfl
  | unit h =>
    simp only [List.cons_append, List.nil_append, units?, hexNumber?_spec c.toNat h]
    cases units? r <;> rfl
  | plain h hquote hslash =>
    change units? (c :: r) = _
    rw [units?.eq_4 _ _ (fun _ _ _ _ _ hc _ => hslash hc) (fun _ _ hc _ => hslash hc)]
    have hguard : (decide (32 ≤ c.toNat) && c != '\\') = true := by simp [h, hslash]
    rw [hguard]
    cases units? r <;> rfl

private theorem units?_escaped (cs : List Char) :
    units? (cs.flatMap escapeChar) = some (cs.map Char.toNat) := by
  induction cs with
  | nil => rfl
  | cons c cs ih =>
    rw [List.flatMap_cons, units?_escapes (escapes_escapeChar c), ih]
    rfl

private theorem joinUnits?_toNat (cs : List Char) : joinUnits? (cs.map Char.toNat) = some cs := by
  induction cs with
  | nil => rfl
  | cons c cs ih =>
    have hscalar : c.toNat < 0xd800 ∨ 0xdfff < c.toNat := by
      rcases c.valid with h | h
      · exact Or.inl h
      · exact Or.inr h.1
    have hwhole : (decide (0xd800 ≤ c.toNat) && decide (c.toNat < 0xe000)) = false := by
      simp only [Bool.and_eq_false_iff, decide_eq_false_iff_not]
      omega
    have hhigh : (decide (0xd800 ≤ c.toNat) && decide (c.toNat < 0xdc00)) = false := by
      simp only [Bool.and_eq_false_iff, decide_eq_false_iff_not]
      omega
    have hlow : (decide (0xdc00 ≤ c.toNat) && decide (c.toNat < 0xe000)) = false := by
      simp only [Bool.and_eq_false_iff, decide_eq_false_iff_not]
      omega
    cases cs with
    | nil =>
      rw [List.map_singleton, joinUnits?.eq_2, hwhole, Char.ofNat_toNat]
      rfl
    | cons d cs =>
      rw [List.map_cons, List.map_cons, joinUnits?.eq_3, hhigh, hlow, ← List.map_cons, ih,
        Char.ofNat_toNat]
      rfl

/-- A text is what its escaped form spells. -/
theorem text?_inside (s : String) : text? (inside s) = some s := by
  have hbytes := Text.fromUTF8?_octets (String.ofList (s.toList.flatMap escapeChar))
  rw [String.toList_ofList] at hbytes
  unfold text? inside
  rw [hbytes, Option.bind_some, String.toList_ofList, unescape?, units?_escaped, Option.bind_some,
    joinUnits?_toNat, Option.map_some, String.ofList_toList]

/-! ### Numbers -/

private theorem head?_toDigits (n : Nat) (h : 0 < n) : (Nat.toDigits 10 n).head? ≠ some '0' := by
  induction n using Nat.strongRecOn with
  | _ n ih =>
    rw [Nat.toDigits_eq_if (by decide)]
    split_ifs with hlt
    · have hall : ∀ n < 10, 0 < n → Nat.digitChar n ≠ '0' := by decide
      have := hall n hlt h
      simpa using this
    · rw [List.head?_append, Option.or_of_isSome (by simp [List.isSome_head?])]
      exact ih (n / 10) (by omega) (by omega)

theorem number?_toDigits (n : Nat) : number? (Nat.toDigits 10 n) = some (.int n) := by
  have hall : ∀ c ∈ Nat.toDigits 10 n, c.isDigit := fun c hc =>
    Nat.isDigit_of_mem_toDigits (by decide) (by decide) hc
  have hsign : sign (Nat.toDigits 10 n) = (false, Nat.toDigits 10 n) := by
    unfold sign
    split
    · rename_i heq
      have := hall '-' (by rw [heq]; exact List.mem_cons_self)
      exact absurd this (by decide)
    · rfl
  have hdigits : digits (Nat.toDigits 10 n) = (Nat.toDigits 10 n, []) := by
    unfold digits
    rw [List.takeWhile_eq_self_iff.mpr hall, List.dropWhile_eq_nil_iff.mpr hall]
  have hlead : (!(Nat.toDigits 10 n).isEmpty && ((Nat.toDigits 10 n).length == 1 ||
      (Nat.toDigits 10 n).head? != some '0')) = true := by
    rcases Nat.eq_zero_or_pos n with rfl | hpos
    · decide
    · simp [head?_toDigits n hpos]
  have hvalue : digitsValue (Nat.toDigits 10 n) = n := Nat.ofDigitChars_ten_toDigits
  unfold number?
  simp only [hsign, hdigits, hlead, hvalue]
  rfl

/-! ### Marks -/

/-- What follows a value does not go on with a number. -/
def Stops (r : List Char) : Prop :=
  ∀ c ∈ r.head?, isNumberChar c = false

/-- The bytes of a value on one line. -/
def written (j : Json) : List Char :=
  Text.octets j.compact.toList

mutual

/-- The value as it is read from one line. -/
def raw : Json → Raw
  | .null => .null
  | .bool b => .bool b
  | .int n => .int n
  | .decimal text => .decimal text
  | .str s => .str (inside s)
  | .arr elements => .arr (raws elements)
  | .obj fields => .obj (rawFields fields)

def raws : List Json → List Raw
  | [] => []
  | j :: js => j.raw :: raws js

def rawFields : List (String × Json) → List (List Char × Raw)
  | [] => []
  | (name, j) :: fields => (inside name, j.raw) :: rawFields fields

end

mutual

/-- Whether a value has no fraction or exponent, and no negative number. -/
def isPlain : Json → Bool
  | .null | .bool _ | .str _ => true
  | .int n => 0 ≤ n
  | .decimal _ => false
  | .arr elements => arePlain elements
  | .obj fields => arePlainFields fields

def arePlain : List Json → Bool
  | [] => true
  | j :: js => j.isPlain && arePlain js

def arePlainFields : List (String × Json) → Bool
  | [] => true
  | (_, j) :: fields => j.isPlain && arePlainFields fields

end

mutual

/-- The marks of a value. -/
def marks : Json → List Mark
  | .arr [] => [.openBracket, .closeBracket]
  | .arr (j :: js) => .openBracket :: j.marks ++ moreMarks js ++ [.closeBracket]
  | .obj [] => [.openBrace, .closeBrace]
  | .obj ((name, j) :: fields) => .openBrace :: .scalar (.str (inside name)) :: .colon :: j.marks ++
      moreFieldMarks fields ++ [.closeBrace]
  | j => [.scalar j.raw]

/-- The marks of elements after the first. -/
def moreMarks : List Json → List Mark
  | [] => []
  | j :: js => .comma :: j.marks ++ moreMarks js

/-- The marks of fields after the first. -/
def moreFieldMarks : List (String × Json) → List Mark
  | [] => []
  | (name, j) :: fields => .comma :: .scalar (.str (inside name)) :: .colon :: j.marks ++
      moreFieldMarks fields

end

/-! ### The bytes of values -/

private theorem octets_intercalate (s : String) (l : List String) :
    Text.octets (",".intercalate (s :: l)).toList =
      Text.octets s.toList ++ l.flatMap fun t => ',' :: Text.octets t.toList := by
  induction l generalizing s with
  | nil => simp
  | cons t l ih =>
    rw [String.intercalate_cons_cons, String.toList_append, String.toList_append,
      Text.octets_append, Text.octets_append, ih, List.flatMap_cons, List.append_assoc]
    rfl

private theorem compactElements_eq (js : List Json) : compactElements js = js.map compact := by
  induction js with
  | nil => rfl
  | cons j js ih => rw [compactElements, ih, List.map_cons]

private theorem compactFields_eq (fields : List (String × Json)) :
    compactFields fields = fields.map fun (name, j) => quote name ++ ":" ++ j.compact := by
  induction fields with
  | nil => rfl
  | cons field fields ih => rw [compactFields, ih, List.map_cons]

private theorem octets_mark {c : Char} (h : c.toNat < 0x80) : Text.octets [c] = [c] :=
  Text.octets_of_ascii (by simpa using h)

theorem written_str (s : String) : written (.str s) = '"' :: inside s ++ ['"'] := by
  rw [written, compact, quote, String.toList_append, String.toList_append, String.toList_ofList,
    String.toList_ofList, Text.octets_append, Text.octets_append, octets_mark (by decide)]
  rfl

theorem written_nat (n : Nat) : written (.int n) = Nat.toDigits 10 n := by
  rw [written, compact]
  change Text.octets (Nat.repr n).toList = _
  rw [Nat.toList_repr]
  apply Text.octets_of_ascii
  intro c hc
  have hdigit := Nat.isDigit_of_mem_toDigits (by decide) (by decide) hc
  simp only [Char.isDigit, Bool.and_eq_true, decide_eq_true_eq] at hdigit
  have hle : c.toNat ≤ 57 := hdigit.2
  omega

theorem written_arr_cons (j : Json) (js : List Json) : written (.arr (j :: js)) =
    '[' :: j.written ++ js.flatMap (',' :: ·.written) ++ [']'] := by
  rw [written, compact, compactElements_eq, String.toList_append, String.toList_append,
    Text.octets_append, Text.octets_append, List.map_cons, octets_intercalate, List.flatMap_map]
  rfl

/-- The bytes of a field. -/
def writtenField (field : String × Json) : List Char :=
  '"' :: inside field.1 ++ '"' :: ':' :: field.2.written

private theorem octets_field (field : String × Json) :
    Text.octets (quote field.1 ++ ":" ++ field.2.compact).toList = writtenField field := by
  have hcolon : Text.octets ":".toList = [':'] := octets_mark (by decide)
  have hname : Text.octets (quote field.1).toList = '"' :: inside field.1 ++ ['"'] :=
    written_str field.1
  rw [String.toList_append, String.toList_append, Text.octets_append, Text.octets_append, hcolon,
    hname, writtenField, written]
  simp

theorem written_obj_cons (field : String × Json) (fields : List (String × Json)) :
    written (.obj (field :: fields)) =
      '\x7b' :: writtenField field ++ fields.flatMap (',' :: writtenField ·) ++ ['\x7d'] := by
  rw [written, compact, compactFields_eq, String.toList_append, String.toList_append,
    Text.octets_append, Text.octets_append, List.map_cons, octets_intercalate, octets_field,
    List.flatMap_map]
  simp only [octets_field]
  rfl

/-! ### Cutting into marks -/

theorem Stops.more {r : List Char} (h : Stops r) {α : Type} (f : α → List Char) (l : List α) :
    Stops (l.flatMap (',' :: f ·) ++ r) := by
  cases l with
  | nil => exact h
  | cons a l =>
    intro c hc
    cases hc
    rfl

theorem stops_of_head {c : Char} (h : isNumberChar c = false) (r : List Char) : Stops (c :: r) := by
  intro d hd
  cases hd
  exact h

theorem marks?_cons {c : Char} {r : List Char} {m : Mark} {n : Nat}
    (hblank : (c == ' ' || c == '\n' || c == '\t' || c == '\r') = false)
    (h : mark? c r = some (m, n)) : marks? (c :: r) = (marks? (r.drop n)).map (m :: ·) := by
  rw [marks?.eq_2, hblank, h]
  rfl

theorem marks?_str (s : String) (r : List Char) :
    marks? (written (.str s) ++ r) = (marks? r).map (.scalar (.str (inside s)) :: ·) := by
  have hmark : mark? '"' (inside s ++ '"' :: r) =
      some (.scalar (.str (inside s)), (inside s).length + 1) := by
    change (do
      let n ← stringLength 0 (inside s ++ '"' :: r)
      guard (isWellFormed ((inside s ++ '"' :: r).take n))
      return (Mark.scalar (.str ((inside s ++ '"' :: r).take n)), n + 1)) = _
    rw [stringLength_inside, Option.bind_eq_bind, Option.bind_some, List.take_left,
      isWellFormed_inside]
    rfl
  rw [written_str, List.append_assoc, List.cons_append]
  change marks? ('"' :: (inside s ++ '"' :: r)) = _
  rw [marks?_cons rfl hmark, ← List.drop_drop, List.drop_left]
  rfl

theorem marks?_nat (n : Nat) {r : List Char} (h : Stops r) :
    marks? (written (.int n) ++ r) = (marks? r).map (.scalar (.int n) :: ·) := by
  rw [written_nat]
  cases hdigits : Nat.toDigits 10 n with
  | nil => exact absurd hdigits Nat.toDigits_ne_nil
  | cons c ds =>
    have hall (d : Char) (hd : d ∈ c :: ds) : d.isDigit :=
      Nat.isDigit_of_mem_toDigits (by decide) (by decide) (hdigits ▸ hd)
    have hrest : (ds ++ r).takeWhile isNumberChar = ds := by
      have hds (d : Char) (hd : d ∈ ds) : isNumberChar d := by
        rw [isNumberChar, hall d (List.mem_cons_of_mem _ hd), Bool.true_or]
      have hr : r.takeWhile isNumberChar = [] := by
        cases r with
        | nil => rfl
        | cons d r => rw [List.takeWhile_cons, h d rfl]; rfl
      rw [List.takeWhile_append_of_pos hds, hr, List.append_nil]
    have hc := hall c List.mem_cons_self
    have hdefault : mark? c (ds ++ r) = (number? (c :: (ds ++ r).takeWhile isNumberChar)).bind
        fun j => some (.scalar j, ((ds ++ r).takeWhile isNumberChar).length) := by
      unfold mark?
      split
      case h_11 => rfl
      all_goals exact absurd hc (by decide)
    have hmark : mark? c (ds ++ r) = some (.scalar (.int n), ds.length) := by
      rw [hdefault, hrest, ← hdigits, number?_toDigits]
      rfl
    have hblank : (c == ' ' || c == '\n' || c == '\t' || c == '\r') = false := by
      simp only [Bool.or_eq_false_iff, beq_eq_false_iff_ne]
      refine ⟨⟨⟨?_, ?_⟩, ?_⟩, ?_⟩ <;> rintro rfl <;> exact absurd hc (by decide)
    rw [List.cons_append, marks?_cons hblank hmark, List.drop_left]

theorem marks?_field {field : String × Json} {r : List Char} {ms : List Mark}
    (h : marks? (field.2.written ++ r) = (marks? r).map (ms ++ ·)) :
    marks? (writtenField field ++ r) =
      (marks? r).map (.scalar (.str (inside field.1)) :: .colon :: ms ++ ·) := by
  have hsplit : writtenField field ++ r =
      written (.str field.1) ++ ':' :: (field.2.written ++ r) := by
    rw [written_str, writtenField]
    simp
  rw [hsplit, marks?_str, marks?_cons rfl rfl, List.drop_zero, h, Option.map_map, Option.map_map]
  rfl

mutual

/-- A value on one line is cut into its marks. -/
theorem marks?_written : (j : Json) → j.isPlain → {r : List Char} → Stops r →
    marks? (j.written ++ r) = (marks? r).map (j.marks ++ ·)
  | .null, _, r, _ => by
    change marks? ('n' :: 'u' :: 'l' :: 'l' :: r) = _
    rw [marks?_cons rfl rfl]
    rfl
  | .bool true, _, r, _ => by
    change marks? ('t' :: 'r' :: 'u' :: 'e' :: r) = _
    rw [marks?_cons rfl rfl]
    rfl
  | .bool false, _, r, _ => by
    change marks? ('f' :: 'a' :: 'l' :: 's' :: 'e' :: r) = _
    rw [marks?_cons rfl rfl]
    rfl
  | .int n, h, r, hr => by
    rw [isPlain, decide_eq_true_eq] at h
    obtain ⟨n, rfl⟩ := Int.eq_ofNat_of_zero_le h
    exact marks?_nat n hr
  | .str s, _, r, _ => marks?_str s r
  | .arr [], _, r, _ => by
    change marks? ('[' :: ']' :: r) = _
    rw [marks?_cons rfl rfl, List.drop_zero, marks?_cons rfl rfl, List.drop_zero, Option.map_map]
    rfl
  | .arr (j :: js), h, r, hr => by
    rw [isPlain, arePlain, Bool.and_eq_true] at h
    have hend : Stops (']' :: r) := stops_of_head rfl r
    have hsplit : written (.arr (j :: js)) ++ r =
        '[' :: (j.written ++ (js.flatMap (',' :: ·.written) ++ ']' :: r)) := by
      simp [written_arr_cons]
    rw [hsplit, marks?_cons rfl rfl, List.drop_zero, marks?_written j h.1 (hend.more _ js),
      marks?_more js h.2 hend, marks?_cons rfl rfl, List.drop_zero]
    simp only [Option.map_map, marks]
    congr 1
    funext ms
    simp
  | .obj [], _, r, _ => by
    change marks? ('\x7b' :: '\x7d' :: r) = _
    rw [marks?_cons rfl rfl, List.drop_zero, marks?_cons rfl rfl, List.drop_zero, Option.map_map]
    rfl
  | .obj ((name, j) :: fields), h, r, hr => by
    rw [isPlain, arePlainFields, Bool.and_eq_true] at h
    have hend : Stops ('\x7d' :: r) := stops_of_head rfl r
    have hsplit : written (.obj ((name, j) :: fields)) ++ r = '\x7b' ::
        (writtenField (name, j) ++ (fields.flatMap (',' :: writtenField ·) ++ '\x7d' :: r)) := by
      simp [written_obj_cons]
    rw [hsplit, marks?_cons rfl rfl, List.drop_zero,
      @marks?_field (name, j) _ _ (marks?_written j h.1 (hend.more _ fields)),
      marks?_moreFields fields h.2 hend, marks?_cons rfl rfl, List.drop_zero]
    simp only [Option.map_map, marks]
    congr 1
    funext ms
    simp

theorem marks?_more : (js : List Json) → arePlain js → {r : List Char} → Stops r →
    marks? (js.flatMap (',' :: written ·) ++ r) = (marks? r).map (moreMarks js ++ ·)
  | [], _, r, _ => by
    change marks? r = (marks? r).map id
    rw [Option.map_id_fun, id]
  | j :: js, h, r, hr => by
    rw [arePlain, Bool.and_eq_true] at h
    rw [List.flatMap_cons, List.append_assoc, List.cons_append, marks?_cons rfl rfl, List.drop_zero, marks?_written j h.1 (hr.more _ js),
      marks?_more js h.2 hr]
    simp only [Option.map_map, moreMarks]
    congr 1
    funext ms
    simp

theorem marks?_moreFields : (fields : List (String × Json)) → arePlainFields fields →
    {r : List Char} → Stops r →
    marks? (fields.flatMap (',' :: writtenField ·) ++ r) =
      (marks? r).map (moreFieldMarks fields ++ ·)
  | [], _, r, _ => by
    change marks? r = (marks? r).map id
    rw [Option.map_id_fun, id]
  | (name, j) :: fields, h, r, hr => by
    rw [arePlainFields, Bool.and_eq_true] at h
    rw [List.flatMap_cons, List.append_assoc, List.cons_append, marks?_cons rfl rfl, List.drop_zero,
      @marks?_field (name, j) _ _ (marks?_written j h.1 (hr.more _ fields)),
      marks?_moreFields fields h.2 hr]
    simp only [Option.map_map, moreFieldMarks]
    congr 1
    funext ms
    simp

end

/-! ### Putting marks together -/

/-- The state after some marks. -/
def Progress.run (p : Progress) (ms : List Mark) : Option Progress :=
  ms.foldlM Progress.step p

theorem Progress.run_cons (p : Progress) (m : Mark) (ms : List Mark) :
    p.run (m :: ms) = (p.step m).bind (·.run ms) :=
  List.foldlM_cons

mutual

/-- The marks of a value are put together to the value. -/
theorem run_marks : (j : Json) → {w : Wanted} → w = .value ∨ w = .valueOrEnd → (cs : List Open) →
    (ms : List Mark) →
    Progress.run ⟨cs, w, none⟩ (j.marks ++ ms) =
      ((⟨cs, w, none⟩ : Progress).put j.raw).bind (·.run ms)
  | .null, _, hw, cs, ms => by rcases hw with rfl | rfl <;> rfl
  | .bool _, _, hw, cs, ms => by rcases hw with rfl | rfl <;> rfl
  | .int _, _, hw, cs, ms => by rcases hw with rfl | rfl <;> rfl
  | .decimal _, _, hw, cs, ms => by rcases hw with rfl | rfl <;> rfl
  | .str _, _, hw, cs, ms => by rcases hw with rfl | rfl <;> rfl
  | .arr [], _, hw, cs, ms => by rcases hw with rfl | rfl <;> rfl
  | .arr (j :: js), w, hw, cs, ms => by
    have hopen : Progress.run ⟨cs, w, none⟩ (marks (.arr (j :: js)) ++ ms) =
        Progress.run ⟨.arr [] :: cs, .valueOrEnd, none⟩
          (j.marks ++ (moreMarks js ++ .closeBracket :: ms)) := by
      have hmarks : marks (.arr (j :: js)) ++ ms =
          .openBracket :: (j.marks ++ (moreMarks js ++ .closeBracket :: ms)) := by simp [marks]
      rw [hmarks, Progress.run_cons]
      rcases hw with rfl | rfl <;> rfl
    rw [hopen, run_marks j (Or.inr rfl)]
    change Progress.run ⟨.arr [j.raw] :: cs, .separator, none⟩ _ = _
    rw [run_moreMarks js, Progress.run_cons]
    change (Progress.put _ (.arr ((raws js).reverse ++ [j.raw]).reverse)).bind _ = _
    rw [List.reverse_append, List.reverse_reverse]
    rfl
  | .obj [], _, hw, cs, ms => by rcases hw with rfl | rfl <;> rfl
  | .obj ((name, j) :: fields), w, hw, cs, ms => by
    have hopen : Progress.run ⟨cs, w, none⟩ (marks (.obj ((name, j) :: fields)) ++ ms) =
        Progress.run ⟨.field [] (inside name) :: cs, .value, none⟩
          (j.marks ++ (moreFieldMarks fields ++ .closeBrace :: ms)) := by
      have hmarks : marks (.obj ((name, j) :: fields)) ++ ms =
          .openBrace :: .scalar (.str (inside name)) :: .colon ::
            (j.marks ++ (moreFieldMarks fields ++ .closeBrace :: ms)) := by simp [marks]
      rw [hmarks, Progress.run_cons]
      rcases hw with rfl | rfl <;> rfl
    rw [hopen, run_marks j (Or.inl rfl)]
    change Progress.run ⟨.obj [(inside name, j.raw)] :: cs, .separator, none⟩ _ = _
    rw [run_moreFieldMarks fields, Progress.run_cons]
    change (Progress.put _ (.obj ((rawFields fields).reverse ++ [(inside name, j.raw)]).reverse)).bind
      _ = _
    rw [List.reverse_append, List.reverse_reverse]
    rfl

theorem run_moreMarks : (js : List Json) → (done : List Raw) → (cs : List Open) →
    (ms : List Mark) →
    Progress.run ⟨.arr done :: cs, .separator, none⟩ (moreMarks js ++ ms) =
      Progress.run ⟨.arr ((raws js).reverse ++ done) :: cs, .separator, none⟩ ms
  | [], _, _, _ => rfl
  | j :: js, done, cs, ms => by
    rw [moreMarks, List.append_assoc, List.cons_append, Progress.run_cons]
    change Progress.run ⟨.arr done :: cs, .value, none⟩ (j.marks ++ _) = _
    rw [run_marks j (Or.inl rfl)]
    change Progress.run ⟨.arr (j.raw :: done) :: cs, .separator, none⟩ _ = _
    rw [run_moreMarks js, raws, List.reverse_cons, List.append_assoc, List.singleton_append]

theorem run_moreFieldMarks : (fields : List (String × Json)) →
    (done : List (List Char × Raw)) → (cs : List Open) → (ms : List Mark) →
    Progress.run ⟨.obj done :: cs, .separator, none⟩ (moreFieldMarks fields ++ ms) =
      Progress.run ⟨.obj ((rawFields fields).reverse ++ done) :: cs, .separator, none⟩ ms
  | [], _, _, _ => rfl
  | (name, j) :: fields, done, cs, ms => by
    rw [moreFieldMarks, List.append_assoc, List.cons_append, Progress.run_cons]
    change Progress.run ⟨.field done (inside name) :: cs, .value, none⟩ (j.marks ++ _) = _
    rw [run_marks j (Or.inl rfl)]
    change Progress.run ⟨.obj ((inside name, j.raw) :: done) :: cs, .separator, none⟩ _ = _
    rw [run_moreFieldMarks fields, rawFields, List.reverse_cons, List.append_assoc,
      List.singleton_append]

end

/-- What was written on one line is read again. -/
theorem read?_compact {j : Json} (h : j.isPlain) : Raw.read? j.compact.toUTF8 = some j.raw := by
  have hmarks : marks? j.written = some j.marks := by
    have := marks?_written j h (show Stops [] from fun c hc => by cases hc)
    rw [List.append_nil, marks?] at this
    rw [this, Option.map_some, List.append_nil]
  have hrun := run_marks j (Or.inl rfl) [] []
  rw [List.append_nil] at hrun
  unfold Raw.read?
  rw [Text.map_toUTF8]
  change (marks? j.written).bind _ = _
  rw [hmarks, Option.bind_some]
  change (Progress.run ⟨[], .value, none⟩ j.marks).bind _ = _
  rw [hrun]
  rfl

/-! ### Parts of records -/

theorem str?_raw (s : String) : (raw (.str s)).str? = some s := by
  rw [raw, Raw.str?, text?_inside]

theorem word?_raw (s : String) : (raw (.str s)).word? = some s := by
  rw [raw, Raw.word?, text?_inside]

theorem bool?_raw (b : Bool) : (raw (.bool b)).bool? = some b := by
  rw [raw, Raw.bool?]

theorem nat?_raw {n bits : Nat} (h : n < 2 ^ bits) : (raw (.nat n)).nat? bits = some n := by
  have hpow : (decide (n < Nat.pow 2 bits)) = true := by
    rw [decide_eq_true_eq]
    exact h
  have hnat : (n : Int).toNat? = some n := rfl
  rw [nat, raw, Raw.nat?, hnat, Option.filter_some, hpow]
  rfl

private theorem raws_eq (js : List Json) : raws js = js.map raw := by
  induction js with
  | nil => rfl
  | cons j js ih => rw [raws, ih, List.map_cons]

private theorem rawFields_eq (fields : List (String × Json)) :
    rawFields fields = fields.map fun (name, j) => (inside name, j.raw) := by
  induction fields with
  | nil => rfl
  | cons field fields ih => rw [rawFields, ih, List.map_cons]

theorem list?_raw {α : Type} {encode : α → Json} {decode : Raw → Option α} {l : List α}
    (h : ∀ a ∈ l, decode (encode a).raw = some a) :
    (raw (.arr (l.map encode))).list? decode = some l := by
  rw [raw, Raw.list?, raws_eq, List.map_map, List.mapM_map]
  induction l with
  | nil => rfl
  | cons a l ih =>
    rw [List.mapM_cons, Function.comp_apply, Function.comp_apply, h a List.mem_cons_self,
      ih fun b hb => h b (List.mem_cons_of_mem _ hb)]
    rfl

theorem option?_raw {α : Type} {encode : α → Json} {decode : Raw → Option α} {o : Option α}
    (h : ∀ a ∈ o, decode (encode a).raw = some a) (hnull : ∀ a ∈ o, (encode a).raw ≠ .null) :
    (raw (.opt encode o)).option? decode = some o := by
  cases o with
  | none => rfl
  | some a =>
    rw [opt, Raw.option?.eq_2 _ _ (hnull a rfl), h a rfl]
    rfl

/-- The fields of a record are found again under their names. -/
theorem record?_raw {names : List String} {fields : List (String × Json)}
    (hnames : fields.map (·.1) = names) (hnodup : names.Nodup) :
    (raw (.obj fields)).record? names = some (fields.map fun field => (field.1, field.2.raw)) := by
  have hfields : (rawFields fields).mapM (fun field => (text? field.1).map (·, field.2)) =
      some (fields.map fun field => (field.1, field.2.raw)) := by
    rw [rawFields_eq, List.mapM_map]
    clear hnames
    induction fields with
    | nil => rfl
    | cons field fields ih =>
      obtain ⟨name, j⟩ := field
      rw [List.mapM_cons, ih]
      change ((text? (inside name)).map (·, j.raw)).bind (fun field => some (field :: _)) = _
      rw [text?_inside]
      rfl
  have hfilter : (fields.map fun field => (field.1, raw field.2)).filter
      (fun field => names.contains field.1) = fields.map fun field => (field.1, raw field.2) := by
    rw [List.filter_eq_self]
    rintro ⟨name, j⟩ hmem
    obtain ⟨field, hfield, heq⟩ := List.mem_map.mp hmem
    cases heq
    rw [List.contains_iff_mem, ← hnames]
    exact List.mem_map_of_mem hfield
  have hkeys : (fields.map fun field => (field.1, raw field.2)).map (·.1) = names := by
    rw [List.map_map, ← hnames]
    rfl
  rw [raw, Raw.record?, hfields, Option.bind_eq_bind, Option.bind_some, hfilter]
  simp only [hkeys, guard, if_pos hnodup]
  rfl

variable {α β : Type} {names : List String} {r : List (String × Raw)} {key : String} {j : Raw}

theorem bind_of_eq_some {o : Option α} {a : α} {f : α → Option β} {b : β} (h : o = some a)
    (hf : f a = some b) : o >>= f = some b := by
  rw [h]
  exact hf

/-- A field whose place in a record is known. -/
theorem lookup_of_getElem? (hnodup : names.Nodup) (hnames : r.map (·.1) = names) (i : Nat)
    (h : r[i]? = some (key, j)) : r.lookup key = some j := by
  rw [← hnames] at hnodup
  clear hnames
  induction r generalizing i with
  | nil => cases h
  | cons field r ih =>
    rw [List.map_cons, List.nodup_cons] at hnodup
    cases i with
    | zero =>
      rw [List.getElem?_cons_zero, Option.some.injEq] at h
      rw [h, List.lookup_cons_self]
    | succ i =>
      rw [List.getElem?_cons_succ] at h
      have hne : (key == field.1) = false := by
        rw [beq_eq_false_iff_ne]
        rintro rfl
        have hmem : (field.1, j).1 ∈ r.map (·.1) := List.mem_map_of_mem (List.mem_of_getElem? h)
        exact hnodup.1 hmem
      rw [List.lookup_cons, hne]
      exact ih hnodup.2 i h

/-- Reads the next field of a record. -/
theorem read_field (hnodup : names.Nodup) (i : Nat) (hnames : r.map (·.1) = names)
    (h : r[i]? = some (key, j)) {decode : Raw → Option α} {a : α} (hdecode : decode j = some a)
    {f : α → Option β} {b : β} (hf : f a = some b) :
    (do let j ← r.lookup key; let a ← decode j; f a) = some b :=
  bind_of_eq_some (lookup_of_getElem? hnodup hnames i h) (bind_of_eq_some hdecode hf)

/-- Reads a field that need not be there. -/
theorem read_optional (hnodup : names.Nodup) (i : Nat) (hnames : r.map (·.1) = names)
    (h : r[i]? = some (key, j)) {decode : Raw → Option α} {o : Option α}
    (hdecode : j.option? decode = some o) {f : Option α → Option β} {b : β} (hf : f o = some b) :
    (do let o ← ((r.lookup key).getD .null).option? decode; f o) = some b := by
  rw [lookup_of_getElem? hnodup hnames i h, Option.getD_some]
  exact bind_of_eq_some hdecode hf

end PhpLint.Json
