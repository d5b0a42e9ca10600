import PhpLint.Proofs.Text.Utf8
import PhpLint.Token.Scan

/-!
Scanning a text by its bytes. A byte outside ASCII is never taken for a character of ASCII, so a
scanner that does not tell characters outside ASCII apart finds the same places in the bytes.
-/
namespace PhpLint.Text

/-- A class that holds all characters outside ASCII or none. -/
def Uniform (p : Char → Bool) : Prop :=
  ∀ c d : Char, 0x80 ≤ c.toNat → 0x80 ≤ d.toNat → p c = p d

/-- Number of bytes of some characters. -/
def width (cs : List Char) : Nat :=
  (octets cs).length

/-- The characters `cs` end the bytes, and the first of them starts at byte `i`. -/
structure Stands (bs : List Char) (i : Nat) (cs : List Char) : Prop where
  le : i ≤ bs.length
  drop : bs.drop i = octets cs

theorem octets_singleton_of_ascii {c : Char} (h : c.toNat < 0x80) : octets [c] = [c] :=
  octets_of_ascii (by simpa using h)

theorem octets_singleton_ne_nil (c : Char) : octets [c] ≠ [] := by
  unfold octets
  rw [List.flatMap_singleton]
  intro h
  have hlength := congrArg List.length (List.map_eq_nil_iff.mp h)
  have := c.utf8Size_pos
  simp at hlength
  omega

theorem octets_ne_nil {cs : List Char} (h : cs ≠ []) : octets cs ≠ [] := by
  cases cs with
  | nil => exact absurd rfl h
  | cons c r =>
    rw [octets_cons]
    intro hnil
    exact octets_singleton_ne_nil c (List.append_eq_nil_iff.mp hnil).1

/-- A uniform class judges the bytes of a character as it judges the character. -/
theorem Uniform.of_mem_octets {p : Char → Bool} (hp : Uniform p) {c b : Char}
    (hb : b ∈ octets [c]) : p b = p c := by
  by_cases hc : c.toNat < 0x80
  · rw [octets_singleton_of_ascii hc, List.mem_singleton] at hb
    rw [hb]
  · have hc : 0x80 ≤ c.toNat := Nat.le_of_not_lt hc
    exact hp b c (le_of_mem_octets hc hb) hc

/-! ### Widths -/

@[simp] theorem width_nil : width [] = 0 :=
  rfl

theorem width_append (cs ds : List Char) : width (cs ++ ds) = width cs + width ds := by
  unfold width
  rw [octets_append, List.length_append]

theorem width_cons (c : Char) (cs : List Char) : width (c :: cs) = width [c] + width cs :=
  width_append [c] cs

theorem width_singleton_of_ascii {c : Char} (h : c.toNat < 0x80) : width [c] = 1 := by
  unfold width
  rw [octets_singleton_of_ascii h]
  rfl

theorem width_pos {cs : List Char} (h : cs ≠ []) : 0 < width cs :=
  List.length_pos_iff.mpr (octets_ne_nil h)

theorem width_of_ascii {cs : List Char} (h : ∀ c ∈ cs, c.toNat < 0x80) : width cs = cs.length := by
  unfold width
  rw [octets_of_ascii h]

theorem take_width_octets (cs : List Char) (n : Nat) :
    (octets cs).take (width (cs.take n)) = octets (cs.take n) := by
  have happend : octets cs = octets (cs.take n) ++ octets (cs.drop n) := by
    rw [← octets_append, List.take_append_drop]
  rw [happend]
  exact List.take_left

theorem width_ofList (cs : List Char) : width cs = (String.ofList cs).utf8ByteSize := by
  rw [← String.size_toByteArray, String.toByteArray_ofList]
  unfold width octets List.utf8Encode
  rw [List.length_map, List.size_toByteArray]

/-! ### Runs -/

theorem takeWhile_octets {p : Char → Bool} (hp : Uniform p) (cs : List Char) :
    (octets cs).takeWhile p = octets (cs.takeWhile p) := by
  induction cs with
  | nil => rfl
  | cons c r ih =>
    rw [octets_cons]
    by_cases hc : p c
    · have hall : ∀ b ∈ octets [c], p b := fun b hb => by rw [hp.of_mem_octets hb]; exact hc
      rw [List.takeWhile_append_of_pos hall, ih, List.takeWhile_cons_of_pos hc,
        octets_cons c (r.takeWhile p)]
    · rw [List.takeWhile_cons_of_neg hc]
      obtain ⟨b, bs, hb⟩ := List.exists_cons_of_ne_nil (octets_singleton_ne_nil c)
      have hpb : ¬ p b := by
        rw [hp.of_mem_octets (hb ▸ List.mem_cons_self)]
        exact hc
      rw [hb, List.cons_append, List.takeWhile_cons_of_neg hpb]
      rfl

theorem drop_run {p : Char → Bool} (cs : List Char) :
    cs.drop (Token.run p cs) = cs.dropWhile p := by
  unfold Token.run
  induction cs with
  | nil => rfl
  | cons c r ih =>
    by_cases hc : p c
    · rw [List.takeWhile_cons_of_pos hc, List.dropWhile_cons_of_pos hc, List.length_cons,
        List.drop_succ_cons, ih]
    · rw [List.takeWhile_cons_of_neg hc, List.dropWhile_cons_of_neg hc]
      rfl

theorem take_run {p : Char → Bool} (cs : List Char) :
    cs.take (Token.run p cs) = cs.takeWhile p := by
  unfold Token.run
  exact (List.prefix_iff_eq_take.mp (List.takeWhile_prefix p)).symm

theorem run_octets {p : Char → Bool} (hp : Uniform p) (cs : List Char) :
    Token.run p (octets cs) = width (cs.take (Token.run p cs)) := by
  rw [take_run]
  unfold Token.run width
  rw [takeWhile_octets hp]

theorem run_eq_findIdx (p : Char → Bool) (cs : List Char) :
    Token.run p cs = (cs.findIdx? fun c => !p c).getD cs.length := by
  rw [← List.findIdx_eq_getD_findIdx?]
  unfold Token.run
  rw [List.takeWhile_eq_take_findIdx_not, List.length_take]
  exact Nat.min_eq_left List.findIdx_le_length

theorem run_eq_zero {p : Char → Bool} (cs : List Char) :
    (Token.run p cs == 0) = !cs.head?.any p := by
  cases cs with
  | nil => rfl
  | cons c r =>
    unfold Token.run
    by_cases hc : p c
    · rw [List.takeWhile_cons_of_pos hc]
      simp [hc]
    · rw [List.takeWhile_cons_of_neg hc]
      simp [hc]

theorem run_cons_of_pos {p : Char → Bool} {c : Char} (h : p c) (r : List Char) :
    Token.run p (c :: r) = Token.run p r + 1 := by
  unfold Token.run
  rw [List.takeWhile_cons_of_pos h, List.length_cons]

/-! ### Patterns -/

theorem octets_isPrefixOf_octets (w cs : List Char) :
    (octets w).isPrefixOf (octets cs) = w.isPrefixOf cs := by
  rw [Bool.eq_iff_iff, List.isPrefixOf_iff_prefix, List.isPrefixOf_iff_prefix, octets_prefix_iff]

theorem flatMap_utf8EncodeChar_inj {cs ds : List Char} :
    cs.flatMap String.utf8EncodeChar = ds.flatMap String.utf8EncodeChar ↔ cs = ds := by
  constructor
  · intro h
    have hoctets : octets cs = octets ds := by
      unfold octets
      rw [h]
    have hle : cs <+: ds := octets_prefix_iff.mp (hoctets ▸ List.prefix_rfl)
    have hge : ds <+: cs := octets_prefix_iff.mp (hoctets ▸ List.prefix_rfl)
    exact hle.eq_of_length_le hge.length_le
  · exact congrArg _

theorem isPrefixOf_octets {w : List Char} (hw : ∀ c ∈ w, c.toNat < 0x80) (cs : List Char) :
    w.isPrefixOf (octets cs) = w.isPrefixOf cs := by
  rw [← octets_isPrefixOf_octets w cs, octets_of_ascii hw]

theorem find?_nil (p : List Char → Bool) :
    Token.find? p [] = if p [] then some 0 else none := by
  unfold Token.find? Token.find?.go
  rfl

private theorem find?_go (p : List Char → Bool) (n : Nat) (s : List Char) :
    Token.find?.go p n s = (Token.find? p s).map (n + ·) := by
  unfold Token.find?
  induction s generalizing n with
  | nil =>
    unfold Token.find?.go
    split <;> rfl
  | cons c r ih =>
    unfold Token.find?.go
    split
    · rfl
    · rw [ih (n + 1), ih 1, Option.map_map]
      congr 1
      funext m
      exact Nat.add_assoc n 1 m

theorem find?_cons (p : List Char → Bool) (c : Char) (r : List Char) :
    Token.find? p (c :: r) = if p (c :: r) then some 0 else (Token.find? p r).map (· + 1) := by
  have hgo : Token.find? p (c :: r) =
      if p (c :: r) then some 0 else Token.find?.go p 1 r := by
    unfold Token.find?
    rw [Token.find?.go]
  rw [hgo, find?_go]
  congr 2
  funext m
  exact Nat.add_comm 1 m

theorem of_find? {p : List Char → Bool} {s : List Char} {n : Nat}
    (h : Token.find? p s = some n) : p (s.drop n) ∧ ∀ i < n, ¬ p (s.drop i) := by
  induction s generalizing n with
  | nil =>
    rw [find?_nil] at h
    split at h
    · rename_i hp
      cases h
      exact ⟨hp, nofun⟩
    · contradiction
  | cons c r ih =>
    rw [find?_cons] at h
    by_cases hp : p (c :: r)
    · rw [if_pos hp] at h
      cases h
      exact ⟨hp, nofun⟩
    · rw [if_neg hp] at h
      obtain ⟨m, hm, rfl⟩ := Option.map_eq_some_iff.mp h
      obtain ⟨hfound, hbefore⟩ := ih hm
      refine ⟨hfound, ?_⟩
      intro i hi
      cases i with
      | zero => exact hp
      | succ i => exact hbefore i (Nat.lt_of_succ_lt_succ hi)

theorem not_of_find?_eq_none {p : List Char → Bool} {s : List Char}
    (h : Token.find? p s = none) (i : Nat) : ¬ p (s.drop i) := by
  induction s generalizing i with
  | nil =>
    rw [find?_nil] at h
    rw [List.drop_nil]
    intro hp
    rw [if_pos hp] at h
    contradiction
  | cons c r ih =>
    rw [find?_cons] at h
    by_cases hp : p (c :: r)
    · rw [if_pos hp] at h
      contradiction
    · rw [if_neg hp] at h
      cases i with
      | zero => exact hp
      | succ i => exact ih (Option.map_eq_none_iff.mp h) i

/-- A single character is found behind the run of all others. -/
theorem find?_singleton (a : Char) (s : List Char) :
    Token.find? [a].isPrefixOf s = if a ∈ s then some (Token.run (· != a) s) else none := by
  induction s with
  | nil => rfl
  | cons c r ih =>
    rw [find?_cons]
    by_cases hc : c = a
    · have hrun : Token.run (· != a) (c :: r) = 0 := by
        unfold Token.run
        rw [List.takeWhile_cons_of_neg (by simp [hc])]
        rfl
      rw [if_pos (by simp [hc]), if_pos (by simp [hc]), hrun]
    · have hrun : Token.run (· != a) (c :: r) = Token.run (· != a) r + 1 :=
        run_cons_of_pos (by simp [hc]) r
      rw [if_neg (by simp [Ne.symm hc]), ih, hrun]
      by_cases hmem : a ∈ r
      · rw [if_pos hmem, if_pos (List.mem_cons_of_mem c hmem)]
        rfl
      · rw [if_neg hmem, if_neg (by simp [hmem, Ne.symm hc])]
        rfl

/-- Where nothing is found, the search goes on behind. -/
theorem find?_append {p : List Char → Bool} {bs : List Char}
    (hp : ∀ b ∈ bs, ∀ r, p (b :: r) = false) (r : List Char) :
    Token.find? p (bs ++ r) = (Token.find? p r).map (· + bs.length) := by
  induction bs with
  | nil => simp
  | cons b bs ih =>
    rw [List.cons_append, find?_cons, hp b List.mem_cons_self, if_neg Bool.false_ne_true,
      ih fun b hb => hp b (List.mem_cons_of_mem _ hb), Option.map_map]
    congr 1

/-- The first place of a pattern in the bytes is that in the characters. -/
theorem find?_octets {a : Char} {w : List Char} (hw : ∀ c ∈ a :: w, c.toNat < 0x80)
    (cs : List Char) : Token.find? (a :: w).isPrefixOf (octets cs) =
      (Token.find? (a :: w).isPrefixOf cs).map fun n => width (cs.take n) := by
  induction cs with
  | nil => rw [octets_nil, find?_nil]; rfl
  | cons c r ih =>
    by_cases hfound : (a :: w).isPrefixOf (c :: r)
    · have hbytes : (a :: w).isPrefixOf (octets (c :: r)) := by rwa [isPrefixOf_octets hw]
      obtain ⟨b, rest, hb⟩ := List.exists_cons_of_ne_nil (octets_ne_nil (List.cons_ne_nil c r))
      rw [find?_cons, if_pos hfound, hb, find?_cons, ← hb, if_pos hbytes]
      rfl
    · have hskip : Token.find? (a :: w).isPrefixOf (octets (c :: r)) =
          (Token.find? (a :: w).isPrefixOf (octets r)).map (· + width [c]) := by
        by_cases hc : c.toNat < 0x80
        · have hbytes : ¬ (a :: w).isPrefixOf (octets (c :: r)) := by rwa [isPrefixOf_octets hw]
          rw [octets_cons, octets_singleton_of_ascii hc, List.singleton_append] at hbytes ⊢
          rw [find?_cons, if_neg hbytes, width_singleton_of_ascii hc]
        · rw [octets_cons]
          apply find?_append
          intro b hb rest
          have hb := le_of_mem_octets (Nat.le_of_not_lt hc) hb
          have ha := hw a List.mem_cons_self
          have hne : a ≠ b := by
            rintro rfl
            omega
          rw [List.isPrefixOf_cons_cons, beq_false_of_ne hne, Bool.false_and]
      rw [hskip, ih, find?_cons, if_neg hfound, Option.map_map, Option.map_map]
      congr 1
      funext n
      change width (r.take n) + width [c] = width ((c :: r).take (n + 1))
      rw [List.take_succ_cons, width_cons c (r.take n), Nat.add_comm]

/-- A pattern that stands among the bytes stands among the characters. -/
theorem infix_of_infix_octets {a : Char} {w cs : List Char} (hw : ∀ c ∈ a :: w, c.toNat < 0x80)
    (h : a :: w <:+: octets cs) : a :: w <:+: cs := by
  obtain ⟨before, after, hsplit⟩ := h
  have hthere : (a :: w).isPrefixOf ((octets cs).drop before.length) := by
    rw [← hsplit, List.append_assoc, List.drop_left, List.isPrefixOf_iff_prefix]
    exact List.prefix_append _ _
  have hbytes := find?_octets hw cs
  cases hfound : Token.find? (a :: w).isPrefixOf cs with
  | none =>
    rw [hfound] at hbytes
    exact absurd hthere (not_of_find?_eq_none hbytes _)
  | some n =>
    have hbegins := List.isPrefixOf_iff_prefix.mp (of_find? hfound).1
    exact hbegins.isInfix.trans (List.drop_suffix n cs).isInfix

/-- A byte of ASCII is a character. -/
theorem eq_cons_of_octets_eq_cons {cs rest : List Char} {b : Char} (hb : b.toNat < 0x80)
    (h : octets cs = b :: rest) : ∃ r, cs = b :: r ∧ octets r = rest := by
  cases cs with
  | nil => contradiction
  | cons c r =>
    rw [octets_cons] at h
    by_cases hc : c.toNat < 0x80
    · rw [octets_singleton_of_ascii hc, List.singleton_append, List.cons.injEq] at h
      exact ⟨r, by rw [h.1], h.2⟩
    · obtain ⟨d, ds, hd⟩ := List.exists_cons_of_ne_nil (octets_singleton_ne_nil c)
      have hle := le_of_mem_octets (Nat.le_of_not_lt hc) (hd ▸ List.mem_cons_self)
      rw [hd, List.cons_append, List.cons.injEq] at h
      rw [h.1] at hle
      omega

/-! ### Classes -/

theorem uniform_of_ascii {p : Char → Bool} (h : ∀ c, p c → c.toNat < 0x80) : Uniform p := by
  intro c d hc hd
  have hnot (x : Char) (hx : 0x80 ≤ x.toNat) : p x = false := by
    rw [Bool.eq_false_iff]
    intro hp
    have := h x hp
    omega
  rw [hnot c hc, hnot d hd]

theorem uniform_eq {a : Char} (ha : a.toNat < 0x80) : Uniform (· == a) := by
  apply uniform_of_ascii
  intro c hc
  rw [eq_of_beq hc]
  exact ha

theorem Uniform.not {p : Char → Bool} (hp : Uniform p) : Uniform fun c => !p c := by
  intro c d hc hd
  change (!p c) = !p d
  rw [hp c d hc hd]

theorem ascii_of_isTabOrSpace {c : Char} (h : isTabOrSpace c) : c.toNat < 0x80 := by
  unfold isTabOrSpace at h
  rcases Bool.or_eq_true_iff.mp h with h | h <;> rw [eq_of_beq h] <;> decide

theorem ascii_of_isBlank {c : Char} (h : isBlank c) : c.toNat < 0x80 := by
  unfold isBlank at h
  simp only [Bool.or_eq_true, beq_iff_eq] at h
  rcases h with (((rfl | rfl) | rfl) | rfl) | rfl <;> decide

theorem ascii_of_isDigit {c : Char} (h : c.isDigit) : c.toNat < 0x80 := by
  have hle : c.toNat ≤ 57 := (Char.isDigit_iff_toNat.mp h).2
  omega

theorem ascii_of_isAlpha {c : Char} (h : c.isAlpha) : c.toNat < 0x80 := by
  unfold Char.isAlpha Char.isUpper Char.isLower at h
  simp only [Bool.or_eq_true, Bool.and_eq_true, decide_eq_true_eq] at h
  change c.val.toNat < 0x80
  rcases h with ⟨_, h⟩ | ⟨_, h⟩ <;> exact Nat.lt_of_le_of_lt (UInt32.le_iff_toNat_le.mp h) (by decide)

theorem ascii_of_toLower {c : Char} (h : c.toLower.toNat < 0x80) : c.toNat < 0x80 := by
  unfold Char.toLower at h
  split at h
  · rename_i hupper
    exact Nat.lt_of_le_of_lt (UInt32.le_iff_toNat_le.mp hupper.2) (by decide)
  · exact h

theorem ascii_of_isHexDigit {c : Char} (h : isHexDigit c) : c.toNat < 0x80 := by
  unfold isHexDigit at h
  simp only [Bool.or_eq_true, Bool.and_eq_true, decide_eq_true_eq] at h
  have hlt {d : Char} (hd : c ≤ d) (hascii : d.toNat < 0x80) : c.toNat < 0x80 :=
    Nat.lt_of_le_of_lt (UInt32.le_iff_toNat_le.mp hd) hascii
  rcases h with (h | ⟨_, h⟩) | ⟨_, h⟩
  · exact ascii_of_isDigit h
  · exact hlt h (by decide)
  · exact hlt h (by decide)

theorem uniform_isTabOrSpace : Uniform isTabOrSpace :=
  uniform_of_ascii fun _ => ascii_of_isTabOrSpace

theorem uniform_isBlank : Uniform isBlank :=
  uniform_of_ascii fun _ => ascii_of_isBlank

theorem uniform_isDigit : Uniform Char.isDigit :=
  uniform_of_ascii fun _ => ascii_of_isDigit

theorem uniform_isAlpha : Uniform Char.isAlpha :=
  uniform_of_ascii fun _ => ascii_of_isAlpha

theorem uniform_isWordStart : Uniform Token.isWordStart := by
  intro c d hc hd
  unfold Token.isWordStart
  simp [hc, hd]

theorem uniform_isWordChar : Uniform Token.isWordChar := by
  intro c d hc hd
  unfold Token.isWordChar Token.isWordStart
  simp [hc, hd]

/-! ### Places in the bytes -/

/-- Whether a text may be cut at a position: not in front of a byte that goes on a character. -/
def isBoundary (bs : List Char) (i : Nat) : Bool :=
  i == 0 || i == bs.length || bs[i]?.any fun b => b.toNat < 0x80 || 0xc0 ≤ b.toNat

section Places

variable {bs cs : List Char} {i : Nat} {c : Char} {r : List Char} {p : Char → Bool}

theorem Stands.length (h : Stands bs i cs) : i + width cs = bs.length := by
  have hle := h.le
  have hdrop := congrArg List.length h.drop
  rw [List.length_drop] at hdrop
  unfold width
  omega

theorem Stands.getElem? (h : Stands bs i cs) : bs[i]? = (octets cs).head? := by
  rw [← h.drop, List.head?_drop]

theorem stands_zero (cs : List Char) : Stands (octets cs) 0 cs :=
  ⟨Nat.zero_le _, rfl⟩

/-- At a place is a byte that uniform classes judge as the character there. -/
theorem Stands.byte (h : Stands bs i (c :: r)) :
    ∃ b, bs[i]? = some b ∧ ∀ p : Char → Bool, Uniform p → p b = p c := by
  obtain ⟨b, rest, hb⟩ := List.exists_cons_of_ne_nil (octets_singleton_ne_nil c)
  refine ⟨b, ?_, fun p hp => hp.of_mem_octets (hb ▸ List.mem_cons_self)⟩
  rw [h.getElem?, octets_cons, hb]
  rfl

/-- A uniform class judges the byte at a place as it judges the character there. -/
theorem Stands.any (h : Stands bs i cs) (hp : Uniform p) : bs[i]?.any p = cs.head?.any p := by
  cases cs with
  | nil => rw [h.getElem?]; rfl
  | cons c r =>
    obtain ⟨b, hb, hp'⟩ := h.byte
    rw [hb]
    exact hp' p hp

theorem Stands.eq_some (h : Stands bs i cs) {a : Char} (ha : a.toNat < 0x80) :
    (bs[i]? == some a) = (cs.head? == some a) := by
  have hany (x : Option Char) : (x == some a) = x.any (· == a) := by cases x <;> rfl
  rw [hany, hany]
  exact h.any (uniform_eq ha)

theorem Stands.getElem?_of_ascii (h : Stands bs i (c :: r)) (hc : c.toNat < 0x80) :
    bs[i]? = some c := by
  rw [h.getElem?, octets_cons, octets_singleton_of_ascii hc]
  rfl

theorem Stands.filter (h : Stands bs i cs) (hp : ∀ c, p c → c.toNat < 0x80) :
    bs[i]?.filter p = cs.head?.filter p := by
  cases cs with
  | nil => rw [h.getElem?]; rfl
  | cons c r =>
    obtain ⟨b, hb, hclass⟩ := h.byte
    have hpb := hclass p (uniform_of_ascii hp)
    by_cases hc : p c
    · rw [h.getElem?_of_ascii (hp c hc)]
      rfl
    · have hb' : ¬ p b := by rwa [hpb]
      rw [hb, List.head?_cons, Option.filter_some, Option.filter_some, if_neg hb', if_neg hc]

theorem Stands.move {ds : List Char} (h : Stands bs i (cs ++ ds)) : Stands bs (i + width cs) ds := by
  have hlength := h.length
  rw [width_append] at hlength
  refine ⟨by omega, ?_⟩
  rw [← List.drop_drop, h.drop, octets_append]
  exact List.drop_left

theorem Stands.moveBy (h : Stands bs i cs) (n : Nat) :
    Stands bs (i + width (cs.take n)) (cs.drop n) := by
  rw [← List.take_append_drop n cs] at h
  exact h.move

/-- Places are told apart by the characters that stand there. -/
theorem Stands.eq_add_width {j : Nat} (h : Stands bs i cs) (n : Nat) (hj : Stands bs j (cs.drop n)) :
    j = i + width (cs.take n) := by
  have hi := (h.moveBy n).length
  have hj := hj.length
  omega

theorem Stands.next (h : Stands bs i (c :: r)) (hc : c.toNat < 0x80) : Stands bs (i + 1) r := by
  have := @Stands.move bs [c] i r h
  rwa [width_singleton_of_ascii hc] at this

theorem Stands.step {a : Char} (h : Stands bs i cs) (ha : a.toNat < 0x80)
    (hhead : cs.head? = some a) : Stands bs (i + 1) (cs.drop 1) := by
  obtain ⟨r, rfl⟩ := List.head?_eq_some_iff.mp hhead
  exact h.next ha

theorem Stands.lt (h : Stands bs i (c :: r)) : i < bs.length := by
  have hlength := h.length
  have := width_pos (List.cons_ne_nil c r)
  omega

theorem Stands.run (h : Stands bs i cs) (hp : Uniform p) :
    Token.run p (bs.drop i) = width (cs.take (Token.run p cs)) := by
  rw [h.drop, run_octets hp]

/-- Behind a run of bytes stands what is behind the run of characters. -/
theorem Stands.skip (h : Stands bs i cs) (hp : Uniform p) :
    Stands bs (i + Token.run p (bs.drop i)) (cs.dropWhile p) := by
  rw [h.run hp, ← drop_run]
  exact h.moveBy _

/-- The first byte of a character does not go on another one. -/
theorem head_octets (c : Char) :
    ∃ b rest, octets [c] = b :: rest ∧ (b.toNat < 0x80 ∨ 0xc0 ≤ b.toNat) := by
  obtain ⟨b, rest, hb⟩ := List.exists_cons_of_ne_nil (octets_singleton_ne_nil c)
  refine ⟨b, rest, hb, ?_⟩
  unfold octets at hb
  rw [List.flatMap_singleton] at hb
  unfold String.utf8EncodeChar at hb
  have hu := c.val.toNat_lt
  dsimp only at hb
  split_ifs at hb <;> rw [List.map_cons, List.cons.injEq] at hb <;>
    rw [← hb.1, toNat_ofNat_toNat, UInt8.toNat_ofNat'] <;> omega

theorem isBoundary_of_stands (h : Stands bs i cs) : isBoundary bs i := by
  unfold isBoundary
  cases cs with
  | nil =>
    have hlength := h.length
    rw [width_nil] at hlength
    simp [← hlength]
  | cons c r =>
    obtain ⟨b, rest, hb, hfirst⟩ := head_octets c
    rw [h.getElem?, octets_cons, hb]
    simp [hfirst]

/-- A character outside ASCII is passed byte by byte. -/
theorem Stands.pass {α : Type} {f : Nat → α} (h : Stands bs i (c :: r)) (hc : 0x80 ≤ c.toNat)
    (hf : ∀ j b, bs[j]? = some b → 0x80 ≤ b.toNat → f j = f (j + 1)) :
    f i = f (i + width [c]) := by
  have hstep (n : Nat) (hn : n ≤ (octets [c]).length) : f i = f (i + n) := by
    induction n with
    | zero => rfl
    | succ n ih =>
      have hbyte : bs[i + n]? = (octets [c])[n]? := by
        rw [← List.getElem?_drop, h.drop, octets_cons, List.getElem?_append_left hn]
      rw [List.getElem?_eq_getElem hn] at hbyte
      rw [ih (by omega), hf _ _ hbyte (le_of_mem_octets hc (List.getElem_mem hn))]
      rfl
  exact hstep _ (Nat.le_refl _)

/-- Whoever passes bytes outside ASCII may pass the first byte of a character for all of it. -/
theorem Stands.pass_first {α : Type} {f : Nat → α} (h : Stands bs i (c :: r))
    (hf : ∀ j b, bs[j]? = some b → 0x80 ≤ b.toNat → f j = f (j + 1)) :
    f (i + 1) = f (i + width [c]) := by
  by_cases hc : c.toNat < 0x80
  · rw [width_singleton_of_ascii hc]
  · have hc : 0x80 ≤ c.toNat := Nat.le_of_not_lt hc
    have huniform : Uniform fun x => decide (0x80 ≤ x.toNat) := by
      intro x y hx hy
      simp [hx, hy]
    obtain ⟨b, hb, hclass⟩ := h.byte
    have hhigh : 0x80 ≤ b.toNat := by simpa [hc] using hclass _ huniform
    rw [← hf i b hb hhigh]
    exact h.pass hc hf

end Places

end PhpLint.Text
