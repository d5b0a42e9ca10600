import PhpLint.Proofs.Model.Relocation

/-!
Token lists that differ in white space and comments only. Positions in two such lists are compared
by where they lie among the tokens with syntax.
-/
namespace PhpLint

open PhpLint.Bracket (Indexed)

/-! ### Positions among others -/

/-- Where a position lies among some others. -/
def place (marks : List Nat) (i : Nat) : Nat × Nat :=
  (marks.countP (· < i), marks.countP (· ≤ i))

variable {marks marks' : List Nat} {i j k l : Nat}

theorem place_cons (m i : Nat) (marks : List Nat) : place (m :: marks) i =
    ((place marks i).1 + if m < i then 1 else 0, (place marks i).2 + if m ≤ i then 1 else 0) := by
  simp [place, List.countP_cons]

/-- A position that is marked itself lies behind all those in front of it. -/
theorem place_lt_of_mem (hi : i ∈ marks) : (place marks i).1 < (place marks i).2 := by
  induction marks with
  | nil => contradiction
  | cons m marks ih =>
    have hle : (place marks i).1 ≤ (place marks i).2 :=
      List.countP_mono_left fun x _ hx => by simpa using Nat.le_of_lt (by simpa using hx)
    rw [place_cons]
    dsimp only
    rcases List.mem_cons.mp hi with rfl | hi
    · rw [if_neg (Nat.lt_irrefl i), if_pos (Nat.le_refl i)]
      omega
    · have := ih hi
      split <;> split <;> omega

theorem lt_iff_place (hi : i ∈ marks) : i < k ↔ (place marks i).2 ≤ (place marks k).1 := by
  have hstrict := place_lt_of_mem hi
  refine ⟨fun hik => List.countP_mono_left fun x _ hx => ?_, fun hle => ?_⟩
  · simp only [decide_eq_true_eq] at hx ⊢
    omega
  · refine Nat.lt_of_not_le fun hki => ?_
    have : (place marks k).1 ≤ (place marks i).1 := List.countP_mono_left fun x _ hx => by
      simp only [decide_eq_true_eq] at hx ⊢
      omega
    omega

theorem gt_iff_place (hi : i ∈ marks) : k < i ↔ (place marks k).2 ≤ (place marks i).1 := by
  have hstrict := place_lt_of_mem hi
  refine ⟨fun hki => List.countP_mono_left fun x _ hx => ?_, fun hle => ?_⟩
  · simp only [decide_eq_true_eq] at hx ⊢
    omega
  · refine Nat.lt_of_not_le fun hik => ?_
    have : (place marks i).2 ≤ (place marks k).2 := List.countP_mono_left fun x _ hx => by
      simp only [decide_eq_true_eq] at hx ⊢
      omega
    omega

/-- A marked position has its place for itself. -/
theorem eq_iff_place (hi : i ∈ marks) : i = k ↔ place marks i = place marks k := by
  refine ⟨congrArg _, fun heq => ?_⟩
  have hlt := lt_iff_place (k := k) hi
  have hgt := gt_iff_place (k := k) hi
  have hstrict := place_lt_of_mem hi
  rw [← heq] at hlt hgt
  omega

/-- Nothing marked lies in front of a position. -/
theorem place_of_lt (h : ∀ m ∈ marks, i < m) : place marks i = (0, 0) := by
  refine Prod.ext (List.countP_eq_zero.mpr fun m hm => ?_) (List.countP_eq_zero.mpr fun m hm => ?_)
  · simpa using Nat.le_of_lt (h m hm)
  · simpa using h m hm

/-- Whether there is room in front of each position; `k` is the first one that is free. -/
def rooms (k : Nat) : List Nat → List Bool
  | [] => []
  | i :: is => decide (k < i) :: rooms (i + 1) is

theorem place_eq_of_mem_zip (h : marks.Pairwise (· < ·)) (h' : marks'.Pairwise (· < ·))
    (hij : (i, j) ∈ marks.zip marks') : place marks' j = place marks i := by
  induction marks generalizing marks' with
  | nil => contradiction
  | cons m marks ih =>
    cases marks' with
    | nil => contradiction
    | cons m' marks' =>
      obtain ⟨hm, htail⟩ := List.pairwise_cons.mp h
      obtain ⟨hm', htail'⟩ := List.pairwise_cons.mp h'
      rw [place_cons, place_cons]
      rcases List.mem_cons.mp hij with heq | hij
      · obtain ⟨rfl, rfl⟩ := Prod.mk.inj heq
        rw [place_of_lt hm, place_of_lt hm', if_neg (Nat.lt_irrefl i), if_neg (Nat.lt_irrefl j),
          if_pos (Nat.le_refl i), if_pos (Nat.le_refl j)]
      · have hi := hm i (List.of_mem_zip hij).1
        have hj := hm' j (List.of_mem_zip hij).2
        rw [ih htail htail' hij, if_pos hi, if_pos hj, if_pos (Nat.le_of_lt hi),
          if_pos (Nat.le_of_lt hj)]

/-- The first free position has room in front of the marks, or it is the first mark. -/
theorem place_eq_of_rooms (h : marks.Pairwise (· < ·)) (h' : marks'.Pairwise (· < ·))
    (hk : ∀ m ∈ marks, k ≤ m) (hl : ∀ m ∈ marks', l ≤ m)
    (hrooms : rooms k marks = rooms l marks') : place marks' l = place marks k := by
  cases marks with
  | nil =>
    cases marks' with
    | nil => rfl
    | cons m' marks' => contradiction
  | cons m marks =>
    cases marks' with
    | nil => contradiction
    | cons m' marks' =>
      obtain ⟨hm, _⟩ := List.pairwise_cons.mp h
      obtain ⟨hm', _⟩ := List.pairwise_cons.mp h'
      have hroom := (List.cons.inj hrooms).1
      rw [decide_eq_decide] at hroom
      have hk := hk m List.mem_cons_self
      have hl := hl m' List.mem_cons_self
      rw [place_cons, place_cons, place_of_lt fun n hn => Nat.lt_of_le_of_lt hk (hm n hn),
        place_of_lt fun n hn => Nat.lt_of_le_of_lt hl (hm' n hn)]
      have hlast : m ≤ k ↔ m' ≤ l := by omega
      rw [if_neg (Nat.not_lt.mpr hk), if_neg (Nat.not_lt.mpr hl)]
      simp only [hlast]

theorem place_succ_eq_of_mem_zip (h : marks.Pairwise (· < ·)) (h' : marks'.Pairwise (· < ·))
    (hrooms : rooms k marks = rooms l marks') (hij : (i, j) ∈ marks.zip marks') :
    place marks' (j + 1) = place marks (i + 1) := by
  -- `k` and `l` are the first free positions, so room behind a mark is told by the tails
  induction marks generalizing marks' k l with
  | nil => contradiction
  | cons m marks ih =>
    cases marks' with
    | nil => contradiction
    | cons m' marks' =>
      obtain ⟨hm, htail⟩ := List.pairwise_cons.mp h
      obtain ⟨hm', htail'⟩ := List.pairwise_cons.mp h'
      have hrooms := (List.cons.inj hrooms).2
      have hbehind : place marks' (j + 1) = place marks (i + 1) ∧ m < i + 1 ∧ m' < j + 1 := by
        rcases List.mem_cons.mp hij with heq | hij
        · obtain ⟨rfl, rfl⟩ := Prod.mk.inj heq
          exact ⟨place_eq_of_rooms htail htail' hm hm' hrooms, Nat.lt_succ_self i,
            Nat.lt_succ_self j⟩
        · exact ⟨ih htail htail' hrooms hij, Nat.lt_succ_of_lt (hm i (List.of_mem_zip hij).1),
            Nat.lt_succ_of_lt (hm' j (List.of_mem_zip hij).2)⟩
      obtain ⟨heq, hi, hj⟩ := hbehind
      rw [place_cons, place_cons, heq, if_pos hi, if_pos hj, if_pos (Nat.le_of_lt hi),
        if_pos (Nat.le_of_lt hj)]

/-! ### Spaces -/

/-- The tokens that carry syntax. -/
def Token.significant (ts : List Token) : List Token :=
  ts.filter (!·.isSpace)

/-- Whether space stands in front of each token with syntax, and in front of the end. -/
def Token.spaced (space : Bool) : List Token → List Bool
  | [] => [space]
  | t :: ts => if t.isSpace then spaced true ts else space :: spaced false ts

/-- Two files differ in white space and comments only, and have them between the same tokens. -/
structure SameSyntax (a b : List Token) : Prop where
  tokens : (Token.significant a).map (fun t => (t.kind, t.text)) =
    (Token.significant b).map fun t => (t.kind, t.text)
  spaces : Token.spaced false a = Token.spaced false b

namespace Lexeme

open Token (significant spaced)

variable {a b ts : List Token} {f line : Nat → Nat}

/-- The positions of the lexemes and of the end. -/
def starts (ts : List Token) : List Nat :=
  (ofTokens false ts).map (·.index) ++ [ts.length]

theorem spaced_true (ts : List Token) : spaced true ts = true :: (spaced false ts).tail := by
  induction ts with
  | nil => rfl
  | cons t ts ih =>
    rw [spaced, spaced]
    by_cases ht : t.isSpace
    · rw [if_pos ht, if_pos ht, ih]
      rfl
    · rw [if_neg ht, if_neg ht]
      rfl

/-- What is known of the lexemes apart from their places. -/
theorem map_ofTokens (joined : Bool) (ts : List Token) :
    (ofTokens joined ts).map (fun x => ((x.kind, x.text), x.joined)) =
      ((significant ts).map fun t => (t.kind, t.text)).zip ((spaced (!joined) ts).map (!·)) := by
  induction ts generalizing joined with
  | nil => rfl
  | cons t ts ih =>
    rw [ofTokens, spaced, significant]
    by_cases ht : t.isSpace
    · rw [if_pos ht, if_pos ht, List.filter_cons_of_neg (by simpa using ht)]
      exact ih false
    · rw [if_neg ht, if_neg ht, List.filter_cons_of_pos (by simpa using ht), List.map_cons,
        List.map_cons, List.map_cons, ih, Bool.not_not]
      rfl

/-- Spaces are where the lexemes leave room. -/
theorem spaced_eq_rooms {before : List Token} {k : Nat} (joined : Bool)
    (hindexed : Indexed (before ++ ts)) (hk : k ≤ before.length) :
    spaced (decide (k < before.length)) ts =
      rooms k ((ofTokens joined ts).map (·.index) ++ [(before ++ ts).length]) := by
  induction ts generalizing before k joined with
  | nil => simp [spaced, rooms, ofTokens]
  | cons t ts ih =>
    have hindex : t.index = before.length := hindexed.index_append
    have happend : before ++ t :: ts = (before ++ [t]) ++ ts := by simp
    rw [happend] at hindexed ⊢
    rw [spaced, ofTokens]
    by_cases ht : t.isSpace
    · have ih := ih (k := k) false hindexed (by simp; omega)
      rw [decide_eq_true (by simp; omega)] at ih
      rw [if_pos ht, if_pos ht, ih]
    · have ih := ih (k := before.length + 1) true hindexed (by simp)
      rw [decide_eq_false (by simp)] at ih
      rw [if_neg ht, if_neg ht, ih, List.map_cons, List.cons_append, rooms, hindex]

theorem starts_pairwise (hindexed : Indexed ts) : (starts ts).Pairwise (· < ·) := by
  have hrising : Rising 0 ts.length (ofTokens false ts) := rising_ahead hindexed 0
  have hlexemes : ((ofTokens false ts).map (·.index)).Pairwise (· < ·) :=
    List.pairwise_map.mpr hrising.pairwise
  refine List.pairwise_append.mpr ⟨hlexemes, List.pairwise_singleton _ _, ?_⟩
  intro i hi j hj
  obtain ⟨x, hx, rfl⟩ := List.mem_map.mp hi
  rw [List.mem_singleton.mp hj]
  exact (hrising.between x hx).2

/-- A file and one with other spaces: a token of the first is moved by `f` to one of the second. -/
structure Twins (f line : Nat → Nat) (a b : List Token) : Prop where
  lexemes : ofTokens false b = moveAll f line (ofTokens false a)
  at_lexeme : ∀ x ∈ ofTokens false a, place (starts b) (f x.index) = place (starts a) x.index
  behind : ∀ x ∈ ofTokens false a, place (starts b) (f x.index + 1) = place (starts a) (x.index + 1)
  first : place (starts b) 0 = place (starts a) 0
  size : place (starts b) b.length = place (starts a) a.length

theorem rooms_starts (hindexed : Indexed ts) : rooms 0 (starts ts) = spaced false ts :=
  (@spaced_eq_rooms ts [] 0 false hindexed (Nat.le_refl 0)).symm

theorem exists_twins (ha : Indexed a) (hb : Indexed b) (h : SameSyntax a b)
    (hf : (significant a).map (fun t => f t.index) = (significant b).map (·.index)) :
    ∃ line, Twins f line a b := by
  let line (i : Nat) : Nat := (b[i]?.map (·.line)).getD 0
  have hindex : (ofTokens false b).map (·.index) =
      (ofTokens false a).map fun x => f x.index := by
    unfold significant at hf
    rw [← map_toToken_ofTokens false, ← map_toToken_ofTokens false, List.map_map,
      List.map_map] at hf
    exact hf.symm
  have hlexemes : ofTokens false b = moveAll f (line ∘ f) (ofTokens false a) := by
    -- a lexeme is put together from what it shares with its twin, its place and the line there
    let build (shape : ((Token.Kind × String) × Bool) × Nat) : Lexeme :=
      ⟨⟨shape.1.1.1, shape.1.1.2, line shape.2, shape.2⟩, shape.1.2⟩
    have hshapes : (ofTokens false b).map (fun x => ((x.kind, x.text), x.joined)) =
        (ofTokens false a).map fun x => ((x.kind, x.text), x.joined) := by
      rw [map_ofTokens, map_ofTokens, Bool.not_false, spaced_true, spaced_true, h.tokens, h.spaces]
    have hbuild : ∀ y ∈ ofTokens false b, build (((y.kind, y.text), y.joined), y.index) = y := by
      intro y hy
      have hmem : y.toToken ∈ b := by
        have := List.mem_map_of_mem (f := (·.toToken)) hy
        rw [map_toToken_ofTokens] at this
        exact (List.mem_filter.mp this).1
      obtain ⟨k, hk⟩ := List.mem_iff_getElem?.mp hmem
      have hline : line y.index = y.line := by
        rw [show line y.index = (b[y.index]?.map (·.line)).getD 0 from rfl,
          index_of_getElem? hb hk, hk]
        rfl
      simp only [build, hline]
    calc ofTokens false b
        = (ofTokens false b).map fun y => build (((y.kind, y.text), y.joined), y.index) := by
          rw [List.map_congr_left hbuild, List.map_id']
      _ = (((ofTokens false b).map fun y => ((y.kind, y.text), y.joined)).zip
            ((ofTokens false b).map (·.index))).map build := by
          rw [List.zip_map', List.map_map]
          rfl
      _ = (((ofTokens false a).map fun x => ((x.kind, x.text), x.joined)).zip
            ((ofTokens false a).map fun x => f x.index)).map build := by rw [hshapes, hindex]
      _ = moveAll f (line ∘ f) (ofTokens false a) := by
          rw [List.zip_map', List.map_map]
          rfl
  have hzip : (starts a).zip (starts b) =
      ((ofTokens false a).map fun x => (x.index, f x.index)) ++ [(a.length, b.length)] := by
    unfold starts
    rw [hindex, List.zip_append (by simp), List.zip_map']
    rfl
  have hmem {x : Lexeme} (hx : x ∈ ofTokens false a) :
      (x.index, f x.index) ∈ (starts a).zip (starts b) := by
    rw [hzip]
    exact List.mem_append_left _ (List.mem_map_of_mem hx)
  have hend : (a.length, b.length) ∈ (starts a).zip (starts b) := by
    rw [hzip]
    exact List.mem_append_right _ List.mem_cons_self
  have hrooms : rooms 0 (starts a) = rooms 0 (starts b) := by
    rw [rooms_starts ha, rooms_starts hb, h.spaces]
  have hpairwise := starts_pairwise ha
  have hpairwise' := starts_pairwise hb
  exact ⟨line ∘ f, hlexemes, fun x hx => place_eq_of_mem_zip hpairwise hpairwise' (hmem hx),
    fun x hx => place_succ_eq_of_mem_zip hpairwise hpairwise' hrooms (hmem hx),
    place_eq_of_rooms hpairwise hpairwise' (fun _ _ => Nat.zero_le _) (fun _ _ => Nat.zero_le _)
      hrooms, place_eq_of_mem_zip hpairwise hpairwise' hend⟩

end Lexeme

end PhpLint
