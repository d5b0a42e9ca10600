import PhpLint.Proofs.Model.Tiling
import PhpLint.Proofs.Model.Turn
import PhpLint.Proofs.Model.UseStatement

/-!
The imports of a namespace. The `use` statements at its top level are read one after the other into its
record, so that it binds what they bind, and a later binding takes the place of an earlier one.
-/
namespace PhpLint

/-- Binds entries one after the other. -/
def ImportMap.bindAll (m entries : ImportMap) : ImportMap :=
  entries.foldl (fun m entry => m.bind entry.1 entry.2) m

theorem ImportMap.lookup_bind (m : ImportMap) (short full name : String) :
    (m.bind short full).lookup name = if name = short then some full else m.lookup name := by
  unfold bind
  by_cases h : name = short
  · rw [if_pos h, h, List.lookup_cons_self]
  · rw [if_neg h, List.lookup_cons, beq_eq_false_iff_ne.mpr h]
    exact lookup_filter_of_ne h m

/-- The last entry of a name counts. -/
theorem ImportMap.lookup_bindAll (m entries : ImportMap) (name : String) :
    (m.bindAll entries).lookup name = (entries.reverse.lookup name).or (m.lookup name) := by
  unfold bindAll
  induction entries generalizing m with
  | nil => rfl
  | cons entry entries ih =>
    rw [List.foldl_cons, ih, lookup_bind, List.reverse_cons, List.lookup_append, Option.or_assoc]
    congr 1
    by_cases h : name = entry.1
    · rw [if_pos h, h, List.lookup_cons_self]
      rfl
    · rw [if_neg h, List.lookup_cons, beq_eq_false_iff_ne.mpr h]
      rfl

namespace SourceFile

/-- A `use` statement at the top level of a namespace starts at token `k`. -/
def UsesAt (file : SourceFile) (ns : Namespace) (k : Nat) : Prop :=
  ∃ before x after, file.StartsImport before x after ∧ x.index = k ∧ ¬ file.InHeader k ∧
    file.namespaceAt k = ns

/-- Behind the `use` at token `k` a statement is written up to its terminator. -/
def WritesUse (file : SourceFile) (k : Nat) (u : Import.Statement) : Prop :=
  ∃ before x s y after, file.lexemes = before ++ x :: (s ++ y :: after) ∧ x.index = k ∧
    Import.Spells s u.marks ∧ y.isTerminator

/-- The `use` statements at the top level of a namespace, with their places in rising order. -/
structure HasUses (file : SourceFile) (ns : Namespace) (us : List (Nat × Import.Statement)) : Prop where
  rising : us.Pairwise (·.1 < ·.1)
  places : ∀ k, file.UsesAt ns k ↔ k ∈ us.map (·.1)
  written : ∀ u ∈ us, file.WritesUse u.1 u.2
  /-- No import in front of global code has lost its terminator and goes on into it. -/
  start : ns.index = ns.bodyStarts → ¬ file.InImport ns.index

end SourceFile

/-- What is bound by the statements that start in front of token `i`. -/
def Import.boundBefore (us : List (Nat × Statement)) (i : Nat) : ImportMap :=
  ImportMap.bindAll [] ((us.filter (·.1 < i)).flatMap (·.2.bindings))

namespace Import

variable {us : List (Nat × Statement)} {u : Nat × Statement} {i k : Nat}

theorem boundBefore_eq_nil (h : ∀ v ∈ us, i ≤ v.1) : boundBefore us i = [] := by
  have hnone : us.filter (·.1 < i) = [] :=
    List.filter_eq_nil_iff.mpr fun v hv => by simpa using h v hv
  unfold boundBefore
  rw [hnone]
  rfl

theorem boundBefore_of_not_mem (h : ∀ v ∈ us, v.1 < i ∨ k ≤ v.1) (hik : i ≤ k)
    (hk : k ∉ us.map (·.1)) : boundBefore us (k + 1) = boundBefore us i := by
  unfold boundBefore
  congr 2
  refine List.filter_congr fun v hv => ?_
  have hne : v.1 ≠ k := fun heq => hk (List.mem_map.mpr ⟨v, hv, heq⟩)
  have := h v hv
  simp only [decide_eq_decide]
  omega

/-- The next statement adds what it binds. -/
theorem boundBefore_of_mem (hrising : us.Pairwise (·.1 < ·.1)) (h : ∀ v ∈ us, v.1 < i ∨ u.1 ≤ v.1)
    (hi : i ≤ u.1) (hu : u ∈ us) :
    boundBefore us (u.1 + 1) = (boundBefore us i).bindAll u.2.bindings := by
  obtain ⟨front, later, rfl⟩ := List.append_of_mem hu
  obtain ⟨_, hlater, hfront⟩ := List.pairwise_append.mp hrising
  have hlater := (List.pairwise_cons.mp hlater).1
  have hbefore (v : Nat × Statement) (hv : v ∈ front) : v.1 < u.1 :=
    hfront v hv u List.mem_cons_self
  have hnone {j : Nat} (hj : j ≤ u.1 + 1) : later.filter (·.1 < j) = [] := by
    refine List.filter_eq_nil_iff.mpr fun v hv => ?_
    have := hlater v hv
    simp only [decide_eq_true_eq]
    omega
  have hall {j : Nat} (hj : ∀ v ∈ front, v.1 < j) : front.filter (·.1 < j) = front :=
    List.filter_eq_self.mpr fun v hv => by simpa using hj v hv
  have hread : ∀ v ∈ front, v.1 < i := fun v hv =>
    (h v (List.mem_append_left _ hv)).resolve_right (Nat.not_le.mpr (hbefore v hv))
  unfold boundBefore
  rw [List.filter_append, List.filter_append,
    List.filter_cons_of_pos (by simp), List.filter_cons_of_neg (by simpa using hi),
    hnone (Nat.le_refl _), hnone (by omega), hall hread,
    hall fun v hv => Nat.lt_succ_of_lt (hbefore v hv), List.append_nil, List.flatMap_append,
    List.flatMap_singleton]
  exact List.foldl_append

theorem Mark.not_isKeyword {m : Mark} {x : Lexeme} (h : m.Spells x) : x.isKeyword "use" = false := by
  cases m with
  | word text => exact Lexeme.not_isKeyword_of_kind (by rw [h.1]; decide)
  | separator =>
    have h : x.kind = .nsSeparator := h
    exact Lexeme.not_isKeyword_of_kind (by rw [h]; decide)
  | as | function | const => exact Lexeme.not_isKeyword_of_isKeyword h (by decide)
  | comma | opening | closing => exact Lexeme.not_isKeyword_of_is h

/-- Among the lexemes of a statement is no other `use`. -/
theorem Spells.not_isKeyword {s : List Lexeme} {marks : List Mark} (h : Spells s marks) :
    ∀ x ∈ s, x.isKeyword "use" = false := by
  induction h with
  | nil => exact fun x hx => absurd hx List.not_mem_nil
  | cons hx _ ih => exact List.forall_mem_cons.mpr ⟨Mark.not_isKeyword hx, ih⟩

end Import

namespace Outline

open Lexeme (Rising opened)

variable {ts : List Token} {found : List (Nat × Nat)} {before after s : List Lexeme} {x y : Lexeme}

theorem Accepted.lt_reach (ha : Accepted ts found)
    (hsplit : Lexeme.ofTokens false ts = before.reverse ++ s) (hy : y ∈ before) :
    y.index < reach before := by
  cases before with
  | nil => contradiction
  | cons z before =>
    rcases List.mem_cons.mp hy with rfl | hy
    · exact Nat.lt_succ_self _
    · exact Nat.lt_succ_of_lt ((List.pairwise_cons.mp (ha.rising hsplit).2.1).1 y hy)

theorem Accepted.lt_reach_or_le (ha : Accepted ts found)
    (hsplit : Lexeme.ofTokens false ts = before.reverse ++ x :: after)
    (hy : y ∈ Lexeme.ofTokens false ts) : y.index < reach before ∨ x.index ≤ y.index := by
  have hmem := hy
  rw [hsplit] at hmem
  rcases List.mem_append.mp hmem with hmem | hmem
  · exact Or.inl (ha.lt_reach hsplit (List.mem_reverse.mp hmem))
  · rcases List.mem_cons.mp hmem with rfl | hmem
    · exact Or.inr (Nat.le_refl _)
    · exact Or.inr (Nat.le_of_lt ((List.pairwise_cons.mp (ha.rising hsplit).1).1 y hmem))

theorem Accepted.mem_after (ha : Accepted ts found)
    (hsplit : Lexeme.ofTokens false ts = before.reverse ++ x :: after)
    (hy : y ∈ Lexeme.ofTokens false ts) (hlt : x.index < y.index) : y ∈ after := by
  rw [hsplit] at hy
  rcases List.mem_append.mp hy with hy | hy
  · have := (ha.rising hsplit).2.2 y (List.mem_reverse.mp hy) x List.mem_cons_self
    omega
  · rcases List.mem_cons.mp hy with rfl | hy
    · exact absurd hlt (Nat.lt_irrefl _)
    · exact hy

/-! ### Records by their places -/

variable {records : List Namespace} {i j : Nat}

theorem namespaceAt_mem (h : InOrder (marks records) j) (i : Nat) :
    namespaceAt records i ∈ records ∧ (namespaceAt records i).index ≤ i := by
  unfold namespaceAt
  cases hlast : (records.takeWhile (·.index ≤ i)).getLast? with
  | some ns =>
    have hmem := List.mem_of_getLast? hlast
    exact ⟨(List.takeWhile_prefix _).subset hmem, by simpa using List.mem_takeWhile_imp hmem⟩
  | none =>
    -- the first record starts with the file, so there is one
    cases records with
    | nil => exact absurd rfl h.ne_nil
    | cons ns records =>
      have hns : ns.index = 0 := Option.some.inj h.first
      rw [List.getLast?_eq_none_iff, List.takeWhile_cons_of_pos (by simp [hns])] at hlast
      contradiction

theorem eq_of_index (h : InOrder (marks records) j) {a b : Namespace} (ha : a ∈ records)
    (hb : b ∈ records) (hindex : a.index = b.index) : a = b := by
  refine List.inj_on_of_nodup_map ?_ ha hb hindex
  have hrising := h.rising
  rw [marks, List.pairwise_map] at hrising
  exact List.pairwise_map.mpr (hrising.imp Nat.ne_of_lt)

/-- The record in force is the last one that does not start behind the token. -/
theorem le_namespaceAt (h : InOrder (marks records) j) {ns : Namespace} (hns : ns ∈ records)
    (hle : ns.index ≤ i) : ns.index ≤ (namespaceAt records i).index := by
  have hrising := h.rising
  rw [marks, List.pairwise_map] at hrising
  have hmem : ns ∈ records.filter (·.index ≤ i) := List.mem_filter.mpr ⟨hns, by simpa using hle⟩
  unfold namespaceAt
  rw [takeWhile_eq_filter hrising]
  cases hlast : (records.filter (·.index ≤ i)).getLast? with
  | none =>
    rw [List.getLast?_eq_none_iff.mp hlast] at hmem
    contradiction
  | some last =>
    obtain ⟨front, hfront⟩ := List.getLast?_eq_some_iff.mp hlast
    have hfiltered := hrising.sublist (List.filter_sublist (p := (·.index ≤ i)))
    rw [hfront] at hmem hfiltered
    rcases List.mem_append.mp hmem with hmem | hmem
    · exact Nat.le_of_lt ((List.pairwise_append.mp hfiltered).2.2 ns hmem last
        (List.mem_singleton_self last))
    · rw [List.mem_singleton.mp hmem]

/-- A record is in force from its start on. -/
theorem namespaceAt_of_le (h : InOrder (marks records) j) {k : Nat}
    (hstart : (namespaceAt records i).index ≤ k) (hk : k ≤ i) :
    namespaceAt records k = namespaceAt records i := by
  obtain ⟨hi, _⟩ := namespaceAt_mem h i
  obtain ⟨hmem, hle⟩ := namespaceAt_mem h k
  refine eq_of_index h hmem hi (Nat.le_antisymm ?_ ?_)
  · exact le_namespaceAt h hmem (Nat.le_trans hle hk)
  · exact le_namespaceAt h hi hstart

namespace Pass

variable {p : Pass} {size : Nat} {ns : Namespace} {us : List (Nat × Import.Statement)}

/-- The last record of the pass is the one that is found for a token of the file. -/
theorem Reaches.index_namespaceAt (name : String) (h : Reaches ts before p) (ha : Accepted ts found)
    (hsplit : Lexeme.ofTokens false ts = before.reverse ++ x :: after)
    (hkey : ¬ x.isKeyword "namespace") {records : Array Namespace} {last : Namespace}
    (hlast : p.namespaces = records.push last) :
    ((SourceFile.ofOutline name ts (ofFinal ts found)).namespaceAt x.index).index = last.index := by
  have hmark := markAt_ofOutline name ha ((ha.between hsplit).between x List.mem_cons_self).2
  rw [h.markAt_index ha hsplit hkey, hlast, marks_push, List.getLast?_concat,
    markAt_marks (inOrder_ofOutline name ha)] at hmark
  exact congrArg Prod.fst (Option.some.inj hmark)

theorem step_import (hkey : x.isKeyword "use") (hlevel : p.atNamespaceLevel)
    (hfront : ¬ before.head?.any (·.is ")")) (hturn : p.skipUntil ≤ x.index) :
    p.step size before x after = p.importStatement size after := by
  have hkind := Lexeme.kind_of_isKeyword hkey
  have hword : Text.fold x.text = "use" := by
    unfold Token.isKeyword Text.sameFold at hkey
    rw [beq_iff_eq.mp (Bool.and_eq_true_iff.mp hkey).2]
    decide
  have hbody : p.classBody = none := by
    cases hid : p.classBody with
    | none => rfl
    | some id =>
      obtain ⟨scopes, hscopes⟩ := scopes_of_classBody hid
      unfold atNamespaceLevel at hlevel
      rw [hscopes] at hlevel
      contradiction
  unfold step
  rw [Lexeme.not_isOpenBracket_of_kind (by rw [hkind]; decide),
    Lexeme.not_isCloseBracket_of_isKeyword hkey, if_neg Bool.false_ne_true,
    if_neg Bool.false_ne_true, if_pos hturn]
  unfold statement
  rw [Lexeme.not_isTerminator_of_isKeyword hkey, if_neg Bool.false_ne_true, hkind]
  unfold keyword
  simp only [hword, hbody, hlevel, hfront]
  simp

theorem namespaces_importStatement {records : Array Namespace} {last : Namespace}
    (hlast : p.namespaces = records.push last) (hs : s ≠ []) :
    (p.importStatement size s).namespaces =
      records.push { last with imports := last.imports.bindAll (Import.read s).1 } := by
  unfold importStatement
  rw [if_neg (by simpa using hs), hlast, Array.size_push, Nat.add_sub_cancel]
  exact modify_last records last fun ns =>
    { ns with imports := ns.imports.bindAll (Import.read s).1 }

/-- A written statement is read up to its terminator. -/
theorem read_of_writesUse (name : String) (ha : Accepted ts found) (hspelled : Token.Spelled ts)
    (hsplit : Lexeme.ofTokens false ts = before.reverse ++ x :: after) {u : Import.Statement}
    (h : (SourceFile.ofOutline name ts (ofFinal ts found)).WritesUse x.index u) :
    ∃ s y r, after = s ++ y :: r ∧ Import.Spells s u.marks ∧ Import.read after = (u.bindings, y :: r) := by
  obtain ⟨b, x', s, y, r, hsplit', hindex, hspells, hy⟩ := h
  obtain ⟨_, rfl, rfl⟩ := ha.split_unique hsplit (hsplit'.trans (by rw [List.reverse_reverse]))
    hindex.symm
  refine ⟨s, y, r, rfl, hspells, Import.read_of_spells hspells hspelled (fun z hz => ?_) hy⟩
  exact (Accepted.mem hsplit (List.mem_cons_of_mem x (List.mem_append_left _ hz))).1

/-- The pass reads every import of the namespace. -/
theorem Reaches.reads_import (name : String) (h : Reaches ts before p) (ha : Accepted ts found)
    (hspelled : Token.Spelled ts)
    (hsplit : Lexeme.ofTokens false ts = before.reverse ++ x :: after)
    (hns : ns ∈ (SourceFile.ofOutline name ts (ofFinal ts found)).namespaces)
    (huses : (SourceFile.ofOutline name ts (ofFinal ts found)).HasUses ns us)
    (hx : (SourceFile.ofOutline name ts (ofFinal ts found)).UsesAt ns x.index) :
    x.isKeyword "use" ∧ p.step ts.length before x after = p.importStatement ts.length after := by
  obtain ⟨b, x', a, ⟨hsplit', hkey, hfront, hlevel⟩, hindex, hheader, hat⟩ := hx
  obtain ⟨rfl, rfl, rfl⟩ := ha.split_unique hsplit
    (hsplit'.trans (by rw [List.reverse_reverse])) hindex.symm
  have hlevel : p.atNamespaceLevel := (h.atNamespaceLevel_iff name ha hsplit
    (Lexeme.not_isCloseBracket_of_isKeyword hkey)).mpr hlevel
  refine ⟨hkey, ?_⟩
  rcases h.turn_cases name ha hsplit with hturn | hinside | ⟨hbody, _⟩ |
    ⟨b', y, a', hy, hlt, hover, hyheader, hspaces⟩
  · exact step_import hkey hlevel (by rwa [List.head?_reverse]) hturn
  · exact absurd hinside hheader
  · obtain ⟨id, hid⟩ := Option.isSome_iff_exists.mp hbody
    obtain ⟨scopes, hscopes⟩ := scopes_of_classBody hid
    unfold atNamespaceLevel at hlevel
    rw [hscopes] at hlevel
    contradiction
  exfalso
  have horder := inOrder_ofOutline name ha
  have hle := (namespaceAt_mem horder x.index).2
  have hns' : namespaceAt (SourceFile.ofOutline name ts (ofFinal ts found)).namespaces x.index = ns := hat
  rw [hns'] at hle
  by_cases hstart : ns.index ≤ y.index
  · -- the import that goes over this one is one of the written statements
    have hy' : (SourceFile.ofOutline name ts (ofFinal ts found)).UsesAt ns y.index :=
      ⟨b', y, a', hy, rfl, hyheader,
        (namespaceAt_of_le horder (by rwa [hns']) (Nat.le_of_lt hlt)).trans hns'⟩
    obtain ⟨u, hu, hplace⟩ := List.mem_map.mp ((huses.places y.index).mp hy')
    have hsplity : Lexeme.ofTokens false ts = b'.reverse.reverse ++ y :: a' :=
      hy.split.trans (by rw [List.reverse_reverse])
    obtain ⟨s, z, r, rfl, hspells, hread⟩ := read_of_writesUse name ha hspelled hsplity
      (hplace ▸ huses.written u hu)
    rw [hread] at hover
    have hz := hover z rfl
    have hmem : x ∈ s := mem_of_index_lt (ha.between hsplity).tail
      (ha.mem_after hsplity (hsplit ▸ by simp) hlt) hz
    rw [hspells.not_isKeyword x hmem] at hkey
    contradiction
  · have hts : ts ≠ [] := by
      rintro rfl
      exact absurd hsplit (by simp [Lexeme.ofTokens])
    have hsplitx : Lexeme.ofTokens false ts = (x :: b.reverse).reverse ++ after := by
      rw [hsplit]
      simp
    have hlater := (List.pairwise_cons.mp (ha.between hsplit).pairwise).1
    refine huses.start ?_ ⟨b', y, a', hy, by omega, fun z hz => Nat.lt_of_le_of_lt hle (hover z hz)⟩
    obtain ⟨last, hlast, bodyEnds, rfl⟩ := exists_of_mem_namespaces ha hts hns
    obtain ⟨later, hmem, hindex, hstart'⟩ := (h.step hsplit).exists_of_final hsplitx hlater last hlast
      (Nat.lt_succ_of_le hle)
    dsimp only at hstart hle ⊢
    rcases (step_cases p ts.length b.reverse x after).spaces.mem_cases hmem with
      ⟨old, hold, hindex', hstart''⟩ | rfl | ⟨_, _, hkey', _⟩
    · rw [hindex, hstart', hindex', hstart'']
      exact hspaces old hold (by omega)
    · exact hindex.trans hstart'.symm
    · rw [Lexeme.not_isKeyword_of_isKeyword hkey (by decide)] at hkey'
      contradiction

/-- An import that the pass reads stands at the top level of the namespace that it is read into. -/
theorem Reaches.usesAt_of_import (name : String) (h : Reaches ts before p) (ha : Accepted ts found)
    (hsplit : Lexeme.ofTokens false ts = before.reverse ++ x :: after)
    (hns : ns ∈ (SourceFile.ofOutline name ts (ofFinal ts found)).namespaces)
    (hkey : x.isKeyword "use") (hlevel : p.atNamespaceLevel) (hfront : ¬ before.head?.any (·.is ")"))
    (hturn : p.skipUntil ≤ x.index) {records : Array Namespace} {last : Namespace}
    (hlast : p.namespaces = records.push last) (hindex : last.index = ns.index) :
    (SourceFile.ofOutline name ts (ofFinal ts found)).UsesAt ns x.index := by
  have horder := inOrder_ofOutline name ha
  have hother : x.isKeyword "namespace" = false :=
    Lexeme.not_isKeyword_of_isKeyword hkey (by decide)
  have hat := h.index_namespaceAt name ha hsplit (by rw [hother]; exact Bool.false_ne_true) hlast
  refine ⟨before.reverse, x, after, ⟨hsplit, hkey, by rwa [List.getLast?_reverse], ?_⟩, rfl, ?_, ?_⟩
  · exact (h.atNamespaceLevel_iff name ha hsplit
      (Lexeme.not_isCloseBracket_of_isKeyword hkey)).mp hlevel
  · exact h.not_inHeader name ha hsplit hturn (Lexeme.not_isTerminator_of_isKeyword hkey)
  · exact eq_of_index horder (namespaceAt_mem horder x.index).1 hns (hat.trans hindex)

/-- At every place the record of the namespace binds what the statements in front of it bind. -/
theorem Reaches.imports_eq (name : String) (h : Reaches ts before p) (ha : Accepted ts found)
    (hspelled : Token.Spelled ts)
    (hns : ns ∈ (SourceFile.ofOutline name ts (ofFinal ts found)).namespaces)
    (huses : (SourceFile.ofOutline name ts (ofFinal ts found)).HasUses ns us) :
    ∀ r ∈ p.namespaces, r.index = ns.index → r.imports = Import.boundBefore us (reach before) := by
  have huse (v : Nat × Import.Statement) (hv : v ∈ us) :
      (SourceFile.ofOutline name ts (ofFinal ts found)).UsesAt ns v.1 :=
    (huses.places v.1).mpr (List.mem_map_of_mem hv)
  have hfrom (v : Nat × Import.Statement) (hv : v ∈ us) : ns.index ≤ v.1 := by
    obtain ⟨_, _, _, _, _, _, rfl⟩ := huse v hv
    exact (namespaceAt_mem (inOrder_ofOutline name ha) v.1).2
  induction h with
  | start =>
    intro r hr _
    rw [Array.mem_singleton.mp hr]
    exact (Import.boundBefore_eq_nil fun v _ => Nat.zero_le v.1).symm
  | @step p before after x h hsplit ih =>
    have hreach := ((ha.between hsplit).between x List.mem_cons_self).1
    have hplaces (v : Nat × Import.Statement) (hv : v ∈ us) :
        v.1 < reach before ∨ x.index ≤ v.1 := by
      obtain ⟨b, y, a, hy, hindex, _⟩ := huse v hv
      rw [← hindex]
      refine ha.lt_reach_or_le hsplit ?_
      have hsplit' : Lexeme.ofTokens false ts = b ++ y :: a := hy.split
      rw [hsplit']
      simp
    have horder := h.inOrder ha
    obtain ⟨records, last, hlast⟩ := horder.exists_push
    by_cases hx : x.index ∈ us.map (·.1)
    · obtain ⟨u, hu, hplace⟩ := List.mem_map.mp hx
      obtain ⟨hkey, hstep⟩ := h.reads_import name ha hspelled hsplit hns huses (hplace ▸ huse u hu)
      obtain ⟨s, y, r, rfl, _, hread⟩ :=
        read_of_writesUse name ha hspelled hsplit (hplace ▸ huses.written u hu)
      have hother : x.isKeyword "namespace" = false :=
        Lexeme.not_isKeyword_of_isKeyword hkey (by decide)
      have hindex : last.index = ns.index := by
        obtain ⟨_, _, _, _, _, _, hat⟩ := hplace ▸ huse u hu
        rw [← h.index_namespaceAt name ha hsplit (by rw [hother]; exact Bool.false_ne_true) hlast, hat]
      rw [hstep, namespaces_importStatement hlast (by simp), hread]
      refine forall_push (fun r hr hindex' => ?_) fun _ => ?_
      · -- the earlier records start in front of the last one
        have hrising := horder.rising
        rw [hlast, marks_push] at hrising
        have hlt := (List.pairwise_append.mp hrising).2.2 (r.index, r.name)
          (List.mem_map_of_mem (Array.mem_toList_iff.mpr hr)) _ (List.mem_singleton_self _)
        exact absurd (hindex'.trans hindex.symm) (Nat.ne_of_lt hlt)
      · have hnext := Import.boundBefore_of_mem huses.rising (hplace ▸ hplaces) (hplace ▸ hreach) hu
        rw [hplace] at hnext
        exact (congrArg (·.bindAll u.2.bindings) (ih last (hlast ▸ Array.mem_push_self) hindex)).trans
          hnext.symm
    · have hsame := Import.boundBefore_of_not_mem hplaces hreach hx
      change ∀ r ∈ (p.step ts.length before x after).namespaces,
        r.index = ns.index → r.imports = Import.boundBefore us (x.index + 1)
      have hempty (hindex : x.index ≤ ns.index) : Import.boundBefore us (x.index + 1) = [] := by
        refine Import.boundBefore_eq_nil fun v hv => ?_
        have hne : v.1 ≠ x.index := fun heq => hx (List.mem_map.mpr ⟨v, hv, heq⟩)
        have := hfrom v hv
        omega
      cases (step_cases p ts.length before x after).spaces with
      | same hnamespaces =>
        rw [hnamespaces, hsame]
        exact ih
      | @ends record _ _ _ hnamespaces =>
        rw [hnamespaces]
        refine forall_push (forall_modify (hsame ▸ ih) record ?_) fun hindex => ?_
        · exact fun r _ hr => hr
        exact (hempty (by rw [← hindex]; exact Nat.le_succ _)).symm
      | imports hkey hnamespaces hlevel hfront hturn =>
        rw [hnamespaces]
        refine forall_modify (hsame ▸ ih) _ fun r hr _ hindex => ?_
        -- the last record is not the one of the namespace
        rw [hlast, Array.size_push, Nat.add_sub_cancel, Array.getElem?_push_size, Option.some.injEq] at hr
        have huse := h.usesAt_of_import name ha hsplit hns hkey hlevel hfront hturn hlast (hr ▸ hindex)
        exact absurd ((huses.places x.index).mp huse) hx
      | declared _ _ hnamespaces =>
        rw [hnamespaces]
        refine forall_push (fun r hr hindex => ?_) fun hindex => ?_
        · obtain ⟨old, hold, bodyEnds, rfl⟩ := mem_endNamespace hr
          rw [hsame]
          exact ih old hold hindex
        · exact (hempty (Nat.le_of_eq hindex)).symm

end Pass

end Outline

open Outline

/--
The imports of a namespace are what the `use` statements at its top level bind, one after the other;
the last binding of a name counts.
-/
theorem SourceFile.imports_of_uses {name : String} {content : ByteArray} {file : SourceFile}
    (h : SourceFile.parse name content = .ok file) {ns : Namespace} (hns : ns ∈ file.namespaces)
    {us : List (Nat × Import.Statement)} (huses : file.HasUses ns us) :
    ns.imports = ImportMap.bindAll [] (us.flatMap (·.2.bindings)) ∧
      ∀ short, ns.imports.lookup short = (us.flatMap (·.2.bindings)).reverse.lookup short := by
  obtain ⟨ts, found, hts, ha, rfl⟩ := parse_eq_ok h
  suffices himports : ns.imports = ImportMap.bindAll [] (us.flatMap (·.2.bindings)) by
    refine ⟨himports, fun short => ?_⟩
    rw [himports, ImportMap.lookup_bindAll, List.lookup_nil, Option.or_none]
  have hplaces (u : Nat × Import.Statement) (hu : u ∈ us) :
      ∃ y ∈ Lexeme.ofTokens false ts, y.index = u.1 := by
    obtain ⟨b, y, a, hy, hindex, _⟩ := (huses.places u.1).mpr (List.mem_map_of_mem hu)
    have hsplit : Lexeme.ofTokens false ts = b ++ y :: a := hy.split
    exact ⟨y, hsplit ▸ by simp, hindex⟩
  by_cases hempty : ts = []
  · subst hempty
    have hnone : us = [] := List.eq_nil_iff_forall_not_mem.mpr fun u hu => by
      obtain ⟨y, hy, _⟩ := hplaces u hu
      contradiction
    have heq : (SourceFile.ofOutline name [] (ofFinal [] found)).namespaces =
        [SourceFile.wholeFile 0] := List.mergeSort_singleton _
    rw [heq] at hns
    rw [List.mem_singleton.mp hns, hnone]
    rfl
  · obtain ⟨last, hlast, bodyEnds, rfl⟩ := exists_of_mem_namespaces ha hempty hns
    have himports := (Pass.reaches_final ts).imports_eq name ha (Token.spelled_of_ofContent hts) hns
      huses last hlast rfl
    have hall : us.filter (·.1 < reach (Lexeme.ofTokens false ts).reverse) = us := by
      refine List.filter_eq_self.mpr fun u hu => ?_
      obtain ⟨y, hy, hindex⟩ := hplaces u hu
      have := ha.lt_reach (Pass.final_split ts) (List.mem_reverse.mpr hy)
      simpa [hindex] using this
    rw [himports, Import.boundBefore, hall]

/-- A `use` in no bracket, with its statement behind it. -/
theorem SourceFile.uses_of_getElem? {file : SourceFile} {ns : Namespace} {u : Import.Statement}
    {i n k : Nat} (hkey : file.lexemes[i]?.any fun x => x.isKeyword "use" && x.index == k)
    (hfront : ¬ (file.lexemes.take i).getLast?.any (·.is ")"))
    (hflat : ∀ o < k, (file.pairedBracket o).all (· ≤ k)) (hheader : ¬ file.InHeader k)
    (hat : file.namespaceAt k = ns)
    (hspells : Import.Spells ((file.lexemes.drop (i + 1)).take n) u.marks)
    (hend : (file.lexemes.drop (i + 1))[n]?.any (·.isTerminator)) :
    file.UsesAt ns k ∧ file.WritesUse k u := by
  obtain ⟨x, hx, hkey⟩ := (Option.any_eq_true ..).mp hkey
  obtain ⟨y, hy, hend⟩ := (Option.any_eq_true ..).mp hend
  obtain ⟨hkey, hindex⟩ := Bool.and_eq_true_iff.mp hkey
  have hindex := beq_iff_eq.mp hindex
  have hat' {l : List Lexeme} {j : Nat} {z : Lexeme} (hz : l[j]? = some z) :
      l = l.take j ++ z :: l.drop (j + 1) := by
    obtain ⟨hj, rfl⟩ := List.getElem?_eq_some_iff.mp hz
    rw [← List.drop_eq_getElem_cons hj, List.take_append_drop]
  have hsplit := hat' hx
  have hwritten := hsplit
  rw [hat' hy] at hwritten
  refine ⟨⟨_, x, _, ⟨hsplit, hkey, hfront, ?_⟩, hindex, hheader, hat⟩,
    _, x, _, y, _, hwritten, hindex, hspells, hend⟩
  rintro o ⟨e, hpair, hlt, hle, _⟩
  have hall := hflat o (hindex ▸ hlt)
  rw [hpair] at hall
  have : e ≤ k := by simpa using hall
  omega

/-- The statements `use A\B, \C\{D as E, function f,};` and `use X\B;`, with their places. -/
def Import.groupAndLater : List (Nat × Statement) :=
  [(1, ⟨.ofClass, .single false ⟨["A"], "B"⟩ none, [.group true ⟨[], "C"⟩
      [⟨.ofClass, ⟨[], "D"⟩, some "E"⟩, ⟨.ofFunction, ⟨[], "f"⟩, none⟩] true]⟩),
    (26, ⟨.ofClass, .single false ⟨["X"], "B"⟩ none, []⟩)]

/-- The later statement takes the place of a binding. -/
theorem SourceFile.imports_of_uses_group : ∃ file,
    SourceFile.parse "a.php" "<?php use A\\B, \\C\\\x7bD as E, function f,\x7d; use X\\B;".toUTF8
      = .ok file ∧ file.HasUses (file.namespaceAt 0) Import.groupAndLater ∧
        (file.namespaceAt 0).imports = [("b", "X\\B"), ("e", "C\\D")] ∧
        (file.namespaceAt 0).imports =
          ImportMap.bindAll [] (Import.groupAndLater.flatMap (·.2.bindings)) := by
  have hfacts : (SourceFile.parse "a.php"
      "<?php use A\\B, \\C\\\x7bD as E, function f,\x7d; use X\\B;".toUTF8).toOption.map (fun file =>
        decide ((file.functions.toList = [] ∧ file.namespaces = [file.namespaceAt 0] ∧
          (file.namespaceAt 0).index = 0 ∧ (file.namespaceAt 0).bodyStarts = 0 ∧
          (file.namespaceAt 0).imports = [("b", "X\\B"), ("e", "C\\D")]) ∧
          (file.lexemes.filter (·.isKeyword "use")).map (·.index) =
            Import.groupAndLater.map (·.1) ∧
          ∀ e ∈ Import.groupAndLater.zip ([(1, 16), (19, 3)] : List (Nat × Nat)),
            (file.lexemes[e.2.1]?.any fun x => x.isKeyword "use" && x.index == e.1.1) ∧
            (¬ (file.lexemes.take e.2.1).getLast?.any (·.is ")")) ∧
            (∀ o < e.1.1, (file.pairedBracket o).all (· ≤ e.1.1)) ∧
            file.namespaceAt e.1.1 = file.namespaceAt 0 ∧
            Import.Spells ((file.lexemes.drop (e.2.1 + 1)).take e.2.2) e.1.2.marks ∧
            (file.lexemes.drop (e.2.1 + 1))[e.2.2]?.any (·.isTerminator))) = some true := by
    decide +kernel
  cases hparse : SourceFile.parse "a.php"
      "<?php use A\\B, \\C\\\x7bD as E, function f,\x7d; use X\\B;".toUTF8 with
  | error e =>
    rw [hparse] at hfacts
    contradiction
  | ok file =>
    rw [hparse] at hfacts
    obtain ⟨⟨hfunctions, hspaces, hindex, hstart, himports⟩, hkeys, huses⟩ :=
      of_decide_eq_true (Option.some.inj hfacts)
    have hheader (k : Nat) : ¬ file.InHeader k := by
      rintro (⟨f, hf, _⟩ | ⟨m, hm, _, hlt⟩)
      · rw [← Array.mem_toList_iff, hfunctions] at hf
        contradiction
      · rw [hspaces] at hm
        rw [List.mem_singleton.mp hm, hstart] at hlt
        contradiction
    have hwritten : ∀ u ∈ Import.groupAndLater,
        file.UsesAt (file.namespaceAt 0) u.1 ∧ file.WritesUse u.1 u.2 := by
      intro u hu
      obtain ⟨place, hplace⟩ : ∃ place, (u, place) ∈ Import.groupAndLater.zip [(1, 16), (19, 3)] := by
        have hu' : u ∈ (Import.groupAndLater.zip [(1, 16), (19, 3)]).map Prod.fst := hu
        obtain ⟨e, he, rfl⟩ := List.mem_map.mp hu'
        exact ⟨e.2, he⟩
      obtain ⟨hkey, hfront, hflat, hat, hspells, hend⟩ := huses _ hplace
      exact SourceFile.uses_of_getElem? hkey hfront hflat (hheader _) hat hspells hend
    have hall : file.HasUses (file.namespaceAt 0) Import.groupAndLater := by
      refine ⟨by decide, fun k => ⟨?_, fun hk => ?_⟩, fun u hu => (hwritten u hu).2, fun _ => ?_⟩
      · rintro ⟨before, x, after, hx, rfl, _⟩
        rw [← hkeys]
        exact List.mem_map_of_mem (List.mem_filter.mpr ⟨by rw [hx.split]; simp, hx.key⟩)
      · obtain ⟨u, hu, rfl⟩ := List.mem_map.mp hk
        exact (hwritten u hu).1
      · rintro ⟨_, _, _, _, hlt, _⟩
        rw [hindex] at hlt
        contradiction
    have hmem : file.namespaceAt 0 ∈ file.namespaces := by
      rw [hspaces]
      exact List.mem_singleton_self _
    exact ⟨file, rfl, hall, himports, (SourceFile.imports_of_uses hparse hmem hall).1⟩

end PhpLint
