import Mathlib
import PhpLint.Text.Ascii
import PhpLint.Text.Utf8

/-! Bytes of encoded text: which characters they belong to, and how far bytes are valid. -/
namespace PhpLint.Text

theorem utf8EncodeChar_of_ascii {c : Char} (h : c.toNat < 0x80) :
    String.utf8EncodeChar c = [UInt8.ofNat c.toNat] := by
  have hv : c.val.toNat ≤ 0x7f := by
    change c.toNat ≤ 0x7f
    omega
  unfold String.utf8EncodeChar
  exact if_pos hv

/-- No byte of a character outside ASCII can be taken for an ASCII character. -/
theorem le_of_mem_utf8EncodeChar {c : Char} (h : 0x80 ≤ c.toNat) {b : UInt8}
    (hb : b ∈ String.utf8EncodeChar c) : 0x80 ≤ b.toNat := by
  have hv : ¬ c.val.toNat ≤ 0x7f := by
    change ¬ c.toNat ≤ 0x7f
    omega
  have hu := c.val.toNat_lt
  unfold String.utf8EncodeChar at hb
  rw [if_neg hv] at hb
  split_ifs at hb <;> simp only [List.mem_cons, List.not_mem_nil, or_false] at hb
  · rcases hb with rfl | rfl <;> rw [UInt8.toNat_ofNat'] <;> omega
  · rcases hb with rfl | rfl | rfl <;> rw [UInt8.toNat_ofNat'] <;> omega
  · rcases hb with rfl | rfl | rfl | rfl <;> rw [UInt8.toNat_ofNat'] <;> omega

/-! ### Line feeds -/

private theorem count_utf8EncodeChar (c : Char) :
    (String.utf8EncodeChar c).count 10 = [c].count '\n' := by
  by_cases hc : c.toNat < 0x80
  · rw [utf8EncodeChar_of_ascii hc, List.count_singleton, List.count_singleton]
    have : (UInt8.ofNat c.toNat == 10) = (c == '\n') := by
      rw [Bool.eq_iff_iff, beq_iff_eq, beq_iff_eq, ← UInt8.toNat_inj, UInt8.toNat_ofNat',
        ← Char.toNat_inj]
      change c.toNat % 256 = 10 ↔ c.toNat = 10
      omega
    rw [this]
  · have hne : c ≠ '\n' := by
      rintro rfl
      exact hc (by decide)
    rw [List.count_singleton, if_neg (by simpa using hne), List.count_eq_zero]
    intro hb
    have := le_of_mem_utf8EncodeChar (by omega) hb
    simp at this

/-- The line feeds of a text are the bytes 10 of its encoding. -/
theorem count_utf8Encode (s : List Char) : s.utf8Encode.data.toList.count 10 = s.count '\n' := by
  unfold List.utf8Encode
  rw [List.data_toByteArray, List.toList_toArray]
  induction s with
  | nil => rfl
  | cons c s ih =>
    rw [List.flatMap_cons, List.count_append, ih, count_utf8EncodeChar, ← List.count_append,
      List.singleton_append]

theorem lineFeeds_append (s t : String) : lineFeeds (s ++ t) = lineFeeds s + lineFeeds t := by
  unfold lineFeeds
  rw [String.toList_append, List.count_append]

/-! ### Valid beginnings -/

/-- Of two encoded texts that begin the same bytes, the shorter begins the longer. -/
theorem prefix_of_utf8Encode_append {s t : List Char} {x y : ByteArray}
    (h : s.utf8Encode ++ x = t.utf8Encode ++ y) (hle : s.utf8Encode.size ≤ t.utf8Encode.size) :
    s <+: t := by
  induction s generalizing t with
  | nil => exact List.nil_prefix
  | cons c s ih =>
    cases t with
    | nil =>
      rw [List.utf8Encode_cons, ByteArray.size_append, List.utf8Encode_singleton] at hle
      have := c.utf8Size_pos
      simp at hle
      omega
    | cons d t =>
      rw [List.utf8Encode_cons, ByteArray.append_assoc, List.utf8Encode_cons (c := d),
        ByteArray.append_assoc] at h
      have hd := congrArg (ByteArray.utf8DecodeChar? · 0) h
      simp only [List.utf8DecodeChar?_utf8Encode_singleton_append, Option.some.injEq] at hd
      subst hd
      rw [ByteArray.append_right_inj] at h
      rw [List.utf8Encode_cons, List.utf8Encode_cons (l := t), ByteArray.size_append,
        ByteArray.size_append] at hle
      exact List.cons_prefix_cons.mpr ⟨rfl, ih h (by omega)⟩

/-- Lengths of the beginnings that spell a text. -/
def validLengths (bytes : ByteArray) : Set Nat :=
  {n | n ≤ bytes.size ∧ (bytes.extract 0 n).IsValidUTF8}

/-- Where no character can be read, no valid beginning goes on. -/
private theorem le_of_decode_eq_none {bytes : ByteArray} {n m : Nat}
    (hn : n ∈ validLengths bytes) (hm : m ∈ validLengths bytes)
    (hnone : bytes.utf8DecodeChar? n = none) : m ≤ n := by
  obtain ⟨hnle, s, hs⟩ := hn
  obtain ⟨hmle, t, ht⟩ := hm
  by_contra hlt
  have hsn : s.utf8Encode.size = n := by rw [← hs, ByteArray.size_extract]; omega
  have htm : t.utf8Encode.size = m := by rw [← ht, ByteArray.size_extract]; omega
  have hwhole (k : Nat) (hk : k ≤ bytes.size) :
      bytes.extract 0 k ++ bytes.extract k bytes.size = bytes := by
    rw [← ByteArray.extract_eq_extract_append_extract k (by omega) hk, ByteArray.extract_zero_size]
  have hst : s <+: t := by
    apply prefix_of_utf8Encode_append (x := bytes.extract n bytes.size)
      (y := bytes.extract m bytes.size) _ (by omega)
    rw [← hs, ← ht, hwhole n hnle, hwhole m hmle]
  obtain ⟨u, rfl⟩ := hst
  cases u with
  | nil => rw [List.append_nil] at htm; omega
  | cons c u =>
    have hrest : bytes.extract n bytes.size =
        (c :: u).utf8Encode ++ bytes.extract m bytes.size := by
      rw [← ByteArray.append_right_inj s.utf8Encode, ← ByteArray.append_assoc,
        ← List.utf8Encode_append, ← ht, ← hs, hwhole n hnle, hwhole m hmle]
    rw [ByteArray.utf8DecodeChar?_eq_utf8DecodeChar?_extract, hrest, List.utf8Encode_cons,
      ByteArray.append_assoc, List.utf8DecodeChar?_utf8Encode_singleton_append] at hnone
    contradiction

private theorem isGreatest_validLength_of_mem {bytes : ByteArray} {start : Nat}
    (h : start ∈ validLengths bytes) :
    IsGreatest (validLengths bytes) (validLength bytes start) := by
  fun_induction validLength bytes start with
  | case1 start hlt c hc ih =>
    have hle := ByteArray.le_size_of_utf8DecodeChar?_eq_some hc
    apply ih
    refine ⟨hle, ?_⟩
    rw [ByteArray.extract_eq_extract_append_extract start (by omega) (by omega)]
    apply h.2.append
    have hget : (bytes.utf8DecodeChar? start).isSome := by rw [hc]; rfl
    have henc := ByteArray.utf8EncodeChar_utf8DecodeChar (h := hget)
    have hchar : bytes.utf8DecodeChar start hget = c := by simp [ByteArray.utf8DecodeChar, hc]
    rw [hchar] at henc
    rw [← henc]
    exact Char.isValidUTF8_toByteArray_utf8EncodeChar
  | case2 start hlt hnone => exact ⟨h, fun m hm => le_of_decode_eq_none h hm hnone⟩
  | case3 start hge => exact ⟨h, fun m hm => by have := hm.1; omega⟩

/-- The valid length is that of the longest beginning that spells a text. -/
theorem isGreatest_validLength (bytes : ByteArray) :
    IsGreatest (validLengths bytes) (validLength bytes 0) := by
  apply isGreatest_validLength_of_mem
  refine ⟨Nat.zero_le _, ?_⟩
  rw [ByteArray.extract_same]
  exact ByteArray.isValidUTF8_empty

theorem isValidUTF8_append_iff {a b : ByteArray} (ha : a.IsValidUTF8) :
    (a ++ b).IsValidUTF8 ↔ b.IsValidUTF8 := by
  constructor
  · rintro ⟨t, ht⟩
    obtain ⟨s, rfl⟩ := ha
    have hst : s <+: t := by
      apply prefix_of_utf8Encode_append (x := b) (y := ByteArray.empty)
      · rw [ht, ByteArray.append_empty]
      · rw [← ht, ByteArray.size_append]
        exact Nat.le_add_right _ _
    obtain ⟨u, rfl⟩ := hst
    rw [List.utf8Encode_append, ByteArray.append_right_inj] at ht
    exact ⟨u, ht⟩
  · exact ha.append

theorem extract_append_add (a b : ByteArray) (n : Nat) :
    (a ++ b).extract 0 (a.size + n) = a ++ b.extract 0 n := by
  have hbehind := ByteArray.extract_append_size_add (a := a) (b := b) (i := 0) (j := n)
  rw [Nat.add_zero] at hbehind
  rw [ByteArray.extract_eq_extract_append_extract a.size (Nat.zero_le _) (Nat.le_add_right _ _),
    ByteArray.extract_append_eq_left rfl, hbehind]

/-- Behind a text the valid beginning is as long as it is alone. -/
theorem validLength_append {a : ByteArray} (ha : a.IsValidUTF8) (b : ByteArray) :
    validLength (a ++ b) 0 = a.size + validLength b 0 := by
  obtain ⟨⟨hle, hvalid⟩, hmax⟩ := isGreatest_validLength b
  refine (isGreatest_validLength (a ++ b)).unique ⟨⟨?_, ?_⟩, ?_⟩
  · rw [ByteArray.size_append]
    exact Nat.add_le_add_left hle _
  · rw [extract_append_add]
    exact ha.append hvalid
  · rintro m ⟨hm, hvalid⟩
    rcases Nat.le_total m a.size with hshort | hlong
    · omega
    · obtain ⟨n, rfl⟩ := Nat.exists_eq_add_of_le hlong
      rw [ByteArray.size_append] at hm
      rw [extract_append_add, isValidUTF8_append_iff ha] at hvalid
      exact Nat.add_le_add_left (hmax ⟨by omega, hvalid⟩) _

/-! ### Decoding -/

theorem decode_eq_ok_iff {bytes : ByteArray} {s : String} :
    decode bytes = .ok s ↔ s.toByteArray = bytes := by
  unfold decode String.fromUTF8?
  constructor
  · intro h
    split_ifs at h with hv
    injection h with h
    rw [← h]
    rfl
  · rintro rfl
    simp only [dif_pos s.isValidUTF8]
    rfl

theorem decode_eq_error_iff {bytes : ByteArray} {n : Nat} :
    decode bytes = .error n ↔ ¬ bytes.IsValidUTF8 ∧ n = validLength bytes 0 := by
  unfold decode String.fromUTF8?
  split_ifs with hv
  · simp [hv]
  · simp [hv, eq_comm]

/-! ### Bytes in order -/

private theorem toList_loop (bytes : ByteArray) (i : Nat) (r : List UInt8) :
    ByteArray.toList.loop bytes i r = r.reverse ++ bytes.data.toList.drop i := by
  fun_induction ByteArray.toList.loop bytes i r with
  | case1 i r hlt ih =>
    have hi : i < bytes.data.toList.length := by
      rw [Array.length_toList]
      exact hlt
    have hget : bytes.get! i = bytes.data.toList[i] := by
      rw [Array.getElem_toList]
      exact getElem!_pos bytes.data i hlt
    rw [ih, List.drop_eq_getElem_cons hi, hget, List.reverse_cons, List.append_assoc,
      List.singleton_append]
  | case2 i r hge =>
    have hle : bytes.data.toList.length ≤ i := by
      rw [Array.length_toList]
      exact Nat.not_lt.mp hge
    rw [List.drop_eq_nil_of_le hle, List.append_nil]

theorem toList_eq_data_toList (bytes : ByteArray) : bytes.toList = bytes.data.toList := by
  unfold ByteArray.toList
  rw [toList_loop, List.reverse_nil, List.nil_append, List.drop_zero]

theorem toList_inj {a b : ByteArray} (h : a.toList = b.toList) : a = b := by
  rw [toList_eq_data_toList, toList_eq_data_toList, Array.toList_inj] at h
  exact ByteArray.ext h

theorem toList_toUTF8 (s : String) : s.toUTF8.toList = s.toList.flatMap String.utf8EncodeChar := by
  rw [toList_eq_data_toList]
  change s.toByteArray.data.toList = _
  rw [← String.utf8Encode_toList, List.utf8Encode, List.data_toByteArray, List.toList_toArray]

/-- The bytes of characters, each as the character of its number. -/
def octets (cs : List Char) : List Char :=
  (cs.flatMap String.utf8EncodeChar).map fun b => Char.ofNat b.toNat

theorem toNat_ofNat_toNat (b : UInt8) : (Char.ofNat b.toNat).toNat = b.toNat := by
  have hb := b.toNat_lt
  have hvalid : b.toNat.isValidChar := Or.inl (by omega)
  unfold Char.ofNat
  rw [dif_pos hvalid]
  rfl

@[simp] theorem octets_nil : octets [] = [] :=
  rfl

theorem octets_append (cs ds : List Char) : octets (cs ++ ds) = octets cs ++ octets ds := by
  unfold octets
  rw [List.flatMap_append, List.map_append]

theorem octets_cons (c : Char) (cs : List Char) : octets (c :: cs) = octets [c] ++ octets cs :=
  octets_append [c] cs

theorem octets_of_ascii {cs : List Char} (h : ∀ c ∈ cs, c.toNat < 0x80) : octets cs = cs := by
  induction cs with
  | nil => rfl
  | cons c cs ih =>
    have hc : c.toNat < 0x80 := h c List.mem_cons_self
    rw [octets_cons, ih fun d hd => h d (List.mem_cons_of_mem _ hd)]
    unfold octets
    rw [List.flatMap_singleton, utf8EncodeChar_of_ascii hc, List.map_singleton,
      UInt8.toNat_ofNat', Nat.mod_eq_of_lt (by omega), Char.ofNat_toNat, List.singleton_append]

theorem le_of_mem_octets {c d : Char} (h : 0x80 ≤ c.toNat) (hd : d ∈ octets [c]) :
    0x80 ≤ d.toNat := by
  unfold octets at hd
  rw [List.flatMap_singleton] at hd
  obtain ⟨b, hb, rfl⟩ := List.mem_map.mp hd
  rw [toNat_ofNat_toNat]
  exact le_of_mem_utf8EncodeChar h hb

theorem map_toUTF8 (s : String) :
    (s.toUTF8.toList.map fun b => Char.ofNat b.toNat) = octets s.toList := by
  rw [toList_toUTF8]
  rfl

theorem map_octets (cs : List Char) :
    (octets cs).map (fun c => UInt8.ofNat c.toNat) = cs.flatMap String.utf8EncodeChar := by
  unfold octets
  rw [List.map_map]
  have hid : (fun c : Char => UInt8.ofNat c.toNat) ∘ (fun b : UInt8 => Char.ofNat b.toNat) = id := by
    funext b
    change UInt8.ofNat (Char.ofNat b.toNat).toNat = b
    rw [toNat_ofNat_toNat]
    exact UInt8.ofNat_toNat
  rw [hid, List.map_id]

/-- The bytes of a text spell the text. -/
theorem fromUTF8?_octets (s : String) :
    String.fromUTF8? ⟨((octets s.toList).map fun c => UInt8.ofNat c.toNat).toArray⟩ = some s := by
  rw [map_octets, ← toList_toUTF8, toList_eq_data_toList]
  change String.fromUTF8? s.toByteArray = some s
  unfold String.fromUTF8?
  rw [dif_pos s.isValidUTF8]
  rfl

/-- Of two texts whose bytes begin the same, the shorter begins the longer. -/
theorem octets_prefix_iff {w cs : List Char} : octets w <+: octets cs ↔ w <+: cs := by
  constructor
  · rintro ⟨rest, hrest⟩
    have hbytes := congrArg (List.map fun c => UInt8.ofNat c.toNat) hrest
    rw [List.map_append, map_octets, map_octets] at hbytes
    have hencode : w.utf8Encode ++ (rest.map fun c => UInt8.ofNat c.toNat).toByteArray =
        cs.utf8Encode ++ ByteArray.empty := by
      unfold List.utf8Encode
      rw [← List.toByteArray_append, hbytes, ByteArray.append_empty]
    apply prefix_of_utf8Encode_append hencode
    have hsize := congrArg ByteArray.size hencode
    rw [ByteArray.size_append, ByteArray.append_empty] at hsize
    omega
  · rintro ⟨rest, rfl⟩
    exact ⟨octets rest, (octets_append w rest).symm⟩

end PhpLint.Text
