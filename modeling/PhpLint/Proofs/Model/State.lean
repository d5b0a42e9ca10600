import PhpLint.Proofs.Model.Change
import PhpLint.Proofs.Model.Level
import PhpLint.Proofs.Token.Operator
import PhpLint.Proofs.Token.Stream

/-!
The states that the pass over a file comes to. Every bracket that is open or announced is the body
of the record that its scope names.
-/
namespace PhpLint.Outline

open PhpLint.Bracket (Indexed)
open Lexeme (LongOperators Rising opened)

/-- Tokens of a file that is accepted, with the pairs of its brackets. -/
structure Accepted (ts : List Token) (found : List (Nat × Nat)) : Prop
    extends Lexeme.Paired ts found where
  nonempty : ∀ t ∈ ts, t.text ≠ ""
  long : LongOperators ts

/-- The position behind some lexemes, the last of which is given first. -/
def reach : List Lexeme → Nat
  | [] => 0
  | x :: _ => x.index + 1

variable {ts : List Token} {found : List (Nat × Nat)} {before after s : List Lexeme} {x : Lexeme}

/-! ### Places in a file -/

theorem Accepted.between (h : Accepted ts found)
    (hsplit : Lexeme.ofTokens false ts = before.reverse ++ s) : Rising (reach before) ts.length s := by
  have hall := Lexeme.rising_ahead h.indexed 0
  rw [Lexeme.ahead_zero, hsplit] at hall
  obtain ⟨hs, _, hbetween⟩ := h.rising hsplit
  refine ⟨hs, fun y hy => ⟨?_, (hall.between y (List.mem_append_right _ hy)).2⟩⟩
  cases before with
  | nil => exact Nat.zero_le _
  | cons x before => exact hbetween x List.mem_cons_self y hy

theorem Accepted.reach_le (h : Accepted ts found)
    (hsplit : Lexeme.ofTokens false ts = before.reverse ++ s) : reach before ≤ ts.length := by
  cases before with
  | nil => exact Nat.zero_le _
  | cons x before =>
    have hall := Lexeme.rising_ahead h.indexed 0
    rw [Lexeme.ahead_zero, hsplit] at hall
    exact (hall.between x (List.mem_append_left _ (List.mem_reverse.mpr List.mem_cons_self))).2

theorem Accepted.mem (hsplit : Lexeme.ofTokens false ts = before.reverse ++ s) {y : Lexeme}
    (hy : y ∈ s) : y.toToken ∈ ts ∧ ¬ y.isSpace := by
  have hmem : y.toToken ∈ (Lexeme.ofTokens false ts).map (·.toToken) := by
    rw [hsplit]
    exact List.mem_map_of_mem (List.mem_append_right _ hy)
  rw [Lexeme.map_toToken_ofTokens] at hmem
  obtain ⟨hmem, hspace⟩ := List.mem_filter.mp hmem
  exact ⟨hmem, by simpa using hspace⟩

/-- A brace in a file is a bracket. -/
theorem Accepted.isOpenBracket (h : Accepted ts found)
    (hsplit : Lexeme.ofTokens false ts = before.reverse ++ s) {y : Lexeme} (hy : y ∈ s)
    (hbrace : y.is "\x7b") : y.isOpenBracket :=
  Lexeme.isOpenBracket_of_is h.long (Accepted.mem hsplit hy).1 (Or.inr (Or.inr rfl)) hbrace

namespace Pass

variable {p p' : Pass} {size i j k : Nat} {r : List Lexeme} {scope : Scope}

/-! ### Reached states -/

/-- The pass over a file comes to a state behind some lexemes, the last of which is given first. -/
inductive Reaches (ts : List Token) : List Lexeme → Pass → Prop where
  | start : Reaches ts [] .start
  | step {p : Pass} {before after : List Lexeme} {x : Lexeme} (h : Reaches ts before p)
    (hsplit : Lexeme.ofTokens false ts = before.reverse ++ x :: after) :
    Reaches ts (x :: before) (p.step ts.length before x after)

theorem Reaches.run (h : Reaches ts before p)
    (hsplit : Lexeme.ofTokens false ts = before.reverse ++ s) :
    Reaches ts (Lexeme.ofTokens false ts).reverse (p.run ts.length before s) := by
  induction s generalizing before p with
  | nil =>
    rw [hsplit, List.append_nil, List.reverse_reverse]
    exact h
  | cons x r ih => exact ih (h.step hsplit) (by rw [hsplit]; simp)

/-- The state at the end of a file. -/
def final (ts : List Token) : Pass :=
  Pass.start.run ts.length [] (Lexeme.ofTokens false ts)

theorem reaches_final (ts : List Token) :
    Reaches ts (Lexeme.ofTokens false ts).reverse (final ts) :=
  Reaches.start.run rfl

/-- The pass comes to every place of a file. -/
theorem exists_reaches (hsplit : Lexeme.ofTokens false ts = before.reverse ++ s) :
    ∃ p, Reaches ts before p := by
  induction before generalizing s with
  | nil => exact ⟨.start, .start⟩
  | cons x before ih =>
    have hsplit' : Lexeme.ofTokens false ts = before.reverse ++ x :: s := by rw [hsplit]; simp
    obtain ⟨p, h⟩ := ih hsplit'
    exact ⟨_, h.step hsplit'⟩

/-- From each place it goes on to the same end. -/
theorem Reaches.run_eq_final (h : Reaches ts before p)
    (hsplit : Lexeme.ofTokens false ts = before.reverse ++ s) :
    p.run ts.length before s = final ts := by
  induction h generalizing s with
  | start => rw [final, hsplit, List.reverse_nil, List.nil_append]
  | @step p before after x h hsplit' ih =>
    rw [hsplit', List.reverse_cons, List.append_assoc] at hsplit
    obtain ⟨_, rfl⟩ := List.cons.inj (List.append_cancel_left hsplit)
    exact ih hsplit'

/-- What every later step keeps holds at the end. -/
theorem Reaches.final_of_keeps {I : List Lexeme → Pass → Prop} (h : Reaches ts before p)
    (hsplit : Lexeme.ofTokens false ts = before.reverse ++ s) (hp : I before p)
    (hkeeps : ∀ b q, ∀ x ∈ s, ∀ r, Reaches ts b q → Lexeme.ofTokens false ts = b.reverse ++ x :: r →
      I b q → I (x :: b) (q.step ts.length b x r)) :
    I (Lexeme.ofTokens false ts).reverse (final ts) := by
  induction s generalizing before p with
  | nil =>
    rw [← h.run_eq_final hsplit, hsplit, List.append_nil, List.reverse_reverse]
    exact hp
  | cons x r ih =>
    have hsplit' : Lexeme.ofTokens false ts = (x :: before).reverse ++ r := by rw [hsplit]; simp
    refine ih (h.step hsplit) hsplit' (hkeeps before p x List.mem_cons_self r h hsplit hp) ?_
    exact fun b q y hy => hkeeps b q y (List.mem_cons_of_mem x hy)

theorem Reaches.sound (h : Reaches ts before p) (ha : Accepted ts found) :
    p.Sound ts.length (reach before) := by
  induction h with
  | start => exact sound_start ts.length
  | @step p before after x h hsplit ih =>
    have hrising := ha.between hsplit
    have hx := hrising.between x List.mem_cons_self
    exact (ih.mono hx.1).step hx.2 before hrising.tail

/-! ### The records of brackets -/

/-- The bracket at `k` opens the body of what it refers to; a namespace starts before token `i`. -/
def Begins (p : Pass) (i k : Nat) : Scope → Prop
  | .block => True
  | .classBody id => Holds p.classes (·.bodyStarts = k) id
  | .functionBody id => Holds p.functions (·.bodyStarts = some k) id
  | .namespaceBody record =>
    Holds p.namespaces (fun ns => ns.bodyStarts = k ∧ ns.index < k ∧ ns.index < i) record

theorem Begins.mono (h : p.Begins i k scope) (hij : i ≤ j) : p.Begins j k scope := by
  cases scope with
  | namespaceBody record =>
    exact Holds.imp h fun ns hns => ⟨hns.1, hns.2.1, Nat.lt_of_lt_of_le hns.2.2 hij⟩
  | _ => exact h

/-- Records in front of a new namespace stay, except that the last one ends. -/
theorem holds_endNamespace {P : Namespace → Prop} {record : Nat} (h : Holds p.namespaces P record)
    (hlt : ∀ ns, P ns → ns.index < i) (hends : ∀ ns e, P ns → P { ns with bodyEnds := e }) :
    Holds (p.endNamespace i).namespaces P record := by
  obtain ⟨ns, hns, hP⟩ := h
  have hsize := (Array.getElem?_eq_some_iff.mp hns).1
  unfold Pass.endNamespace
  cases hback : p.namespaces.back? with
  | none => exact ⟨ns, hns, hP⟩
  | some last =>
    rw [Array.back?_eq_getElem?] at hback
    have hpop (hne : record ≠ p.namespaces.size - 1) : Holds p.namespaces.pop P record := by
      refine ⟨ns, ?_, hP⟩
      rw [Array.getElem?_pop, if_pos (by omega), hns]
    dsimp only
    split
    · rename_i hle
      apply hpop
      rintro rfl
      rw [hback, Option.some.injEq] at hns
      have := hlt ns hP
      rw [hns] at hle
      omega
    · by_cases hrecord : record = p.namespaces.size - 1
      · have hpopped : p.namespaces.pop.size = record := by rw [Array.size_pop, hrecord]
        rw [hrecord, hback, Option.some.injEq] at hns
        rw [← hpopped]
        exact holds_push (hends last _ (hns ▸ hP))
      · exact (hpop hrecord).push _

/-- A step keeps what holds of a class and does not tell what its body holds. -/
theorem Step.holds_classes {P : Class → Prop} (h : p.Step size before x r p')
    (hkeeps : ∀ (c : Class) traits bodyEnds methods properties constants, P c →
      P { c with traits, bodyEnds, methods, properties, constants }) {id : Nat}
    (hb : Holds p.classes P id) : Holds p'.classes P id := by
  cases h.records with
  | same hclasses | functionEnds _ _ hclasses => rwa [hclasses]
  | classEnds _ _ hclasses =>
    rw [hclasses]
    exact hb.modify _ fun c hc => hkeeps c _ _ _ _ _ hc
  | members hf hclasses =>
    rw [hclasses]
    refine hb.modify _ fun c hc => ?_
    obtain ⟨properties, constants, heq⟩ := hf c
    rw [heq]
    exact hkeeps c _ _ _ _ _ hc
  | traits _ _ hclasses =>
    rw [hclasses]
    exact hb.modify _ fun c hc => hkeeps c _ _ _ _ _ hc
  | «class» _ _ hclasses =>
    rw [hclasses]
    exact hb.push _
  | function _ _ _ hclasses =>
    rcases hclasses with hclasses | ⟨_, _, _, hclasses⟩
    · rwa [hclasses]
    · rw [hclasses]
      exact hb.modify _ fun c hc => hkeeps c _ _ _ _ _ hc

/-- A step keeps what holds of a function and does not tell where it ends. -/
theorem Step.holds_functions {P : Function → Prop} (h : p.Step size before x r p')
    (hkeeps : ∀ (f : Function) bodyEnds, P f → P { f with bodyEnds }) {id : Nat}
    (hb : Holds p.functions P id) : Holds p'.functions P id := by
  cases h.records with
  | functionEnds _ _ _ hfunctions =>
    rw [hfunctions]
    exact hb.modify _ fun f hf => hkeeps f _ hf
  | function _ _ _ _ hfunctions =>
    rw [hfunctions]
    exact hb.push _
  | same _ hfunctions | classEnds _ _ _ hfunctions | members _ _ hfunctions
  | traits _ _ _ hfunctions | «class» _ _ _ hfunctions => rwa [hfunctions]

/-- So it does for a namespace that starts before the step. -/
theorem Step.holds_namespaces {P : Namespace → Prop} (h : p.Step size before x r p')
    (hlt : ∀ ns, P ns → ns.index < x.index)
    (hkeeps : ∀ (ns : Namespace) bodyEnds imports, P ns → P { ns with bodyEnds, imports })
    {record : Nat} (hb : Holds p.namespaces P record) : Holds p'.namespaces P record := by
  cases h.spaces with
  | same hnamespaces => rwa [hnamespaces]
  | ends _ _ hnamespaces =>
    rw [hnamespaces]
    exact (hb.modify (f := ({ · with bodyEnds := some x.index })) _
      fun ns hns => hkeeps ns _ ns.imports hns).push _
  | imports _ hnamespaces =>
    rw [hnamespaces]
    exact hb.modify _ fun ns hns => hkeeps ns ns.bodyEnds _ hns
  | declared _ _ hnamespaces =>
    rw [hnamespaces]
    exact (holds_endNamespace hb hlt fun ns e hns => hkeeps ns e ns.imports hns).push _

/-- A step keeps the bodies of records where they are. -/
theorem Step.begins (h : p.Step size before x r p') (hi : i ≤ x.index) (hb : p.Begins i k scope) :
    p'.Begins i k scope := by
  cases scope with
  | block => trivial
  | classBody id => exact h.holds_classes (fun c _ _ _ _ _ hc => hc) hb
  | functionBody id => exact h.holds_functions (fun f _ hf => hf) hb
  | namespaceBody record =>
    exact h.holds_namespaces (fun ns hns => Nat.lt_of_lt_of_le hns.2.2 hi) (fun ns _ _ hns => hns) hb

/-! ### Headers -/

/-- How the header of a class is read, and what it is for the class. -/
theorem class?_eq_some {kind : Class.Kind} {anonymous : Bool} {c : Class}
    (h : p.class? kind anonymous i s = some c) :
    ∃ s₁ s₂ y r, p.className? anonymous s = some (c.nameIndex, c.name, s₁) ∧
      namesAfter? "extends" s₁ = some (c.parents, s₂) ∧
      namesAfter? "implements" s₂ = some (c.interfaces, y :: r) ∧ y.is "\x7b" ∧
      c.index = i ∧ c.bodyStarts = y.index ∧ c.bodyEnds = y.index ∧ c.traits = [] ∧
      c.methods = [] := by
  unfold Pass.class? at h
  obtain ⟨⟨nameIndex, name, s₁⟩, hname, h⟩ := Option.bind_eq_some_iff.mp h
  obtain ⟨⟨parents, s₂⟩, hparents, h⟩ := Option.bind_eq_some_iff.mp h
  obtain ⟨⟨interfaces, s₃⟩, hinterfaces, h⟩ := Option.bind_eq_some_iff.mp h
  obtain ⟨y, hy, h⟩ := Option.bind_eq_some_iff.mp h
  obtain ⟨_, hbrace, h⟩ := Option.bind_eq_some_iff.mp h
  cases h
  obtain ⟨r, rfl⟩ : ∃ r, s₃ = y :: r := List.head?_eq_some_iff.mp hy
  have hbrace : y.is "\x7b" := by
    unfold guard at hbrace
    split at hbrace
    · assumption
    · contradiction
  exact ⟨s₁, s₂, y, r, hname, hparents, hinterfaces, hbrace, rfl, rfl, rfl, rfl, rfl⟩

/-- A class that was just read has no members. -/
theorem members_of_class? {kind : Class.Kind} {anonymous : Bool} {c : Class}
    (h : p.class? kind anonymous i s = some c) : c.properties = [] ∧ c.constants = [] := by
  unfold Pass.class? at h
  obtain ⟨⟨nameIndex, name, s₁⟩, _, h⟩ := Option.bind_eq_some_iff.mp h
  obtain ⟨⟨parents, s₂⟩, _, h⟩ := Option.bind_eq_some_iff.mp h
  obtain ⟨⟨interfaces, s₃⟩, _, h⟩ := Option.bind_eq_some_iff.mp h
  obtain ⟨y, _, h⟩ := Option.bind_eq_some_iff.mp h
  obtain ⟨_, _, h⟩ := Option.bind_eq_some_iff.mp h
  cases h
  exact ⟨rfl, rfl⟩

theorem mem_of_class? {kind : Class.Kind} {anonymous : Bool} {c : Class}
    (h : p.class? kind anonymous i s = some c) : ∃ y ∈ s, y.index = c.bodyStarts ∧ y.is "\x7b" := by
  obtain ⟨s₁, s₂, y, r, hname, hparents, hinterfaces, hbrace, _, hstart, _⟩ := class?_eq_some h
  refine ⟨y, ?_, hstart.symm, hbrace⟩
  exact ((((namesAfter?_suffix hinterfaces).trans (namesAfter?_suffix hparents)).trans
    (className?_suffix hname)).mem List.mem_cons_self)

theorem mem_of_read?_block {isArrow : Bool} {header : Signature}
    (h : Signature.read? isArrow s = some header) (hblock : header.body = .block) :
    ∃ y ∈ s, y.index = header.bodyAt ∧ y.is "\x7b" := by
  obtain ⟨y, r, hsuffix, hat, hbody⟩ := Signature.read?_eq_some h
  refine ⟨y, hsuffix.mem List.mem_cons_self, hat.symm, ?_⟩
  rw [hblock] at hbody
  unfold Signature.body? at hbody
  split at hbody
  · assumption
  · split at hbody
    · contradiction
    · split at hbody
      · cases hbody
      · contradiction

/-! ### Open and announced brackets -/

/-- Every open or announced bracket opens the body of the record that its scope names. -/
structure Tracks (p : Pass) (before s : List Lexeme) : Prop where
  scopes : List.Forall₂ (fun (o : Token) scope => p.Begins (reach before) o.index scope)
    (opened before) p.scopes
  bodies : ∀ body ∈ p.bodies, p.Begins (reach before) body.1 body.2 ∧
    ∃ y ∈ s, y.index = body.1 ∧ y.isOpenBracket
  notBlock : ∀ body ∈ p.bodies, body.2 ≠ .block

theorem Tracks.step (ha : Accepted ts found)
    (hsplit : Lexeme.ofTokens false ts = before.reverse ++ x :: after)
    (h : p.Tracks before (x :: after)) :
    (p.step ts.length before x after).Tracks (x :: before) after := by
  have hstep := step_cases p ts.length before x after
  have hrising := ha.between hsplit
  have hx := (hrising.between x List.mem_cons_self).1
  have hlater : x.index < reach (x :: before) := Nat.lt_succ_self _
  have hbegins {k : Nat} {scope : Scope} (hb : p.Begins (reach before) k scope) :
      (p.step ts.length before x after).Begins (reach (x :: before)) k scope :=
    (hstep.begins hx hb).mono (by omega)
  have hscopes := h.scopes.imp fun o scope hb => hbegins hb
  -- an announced bracket other than the one just read is still to come
  have hbodies (body : Nat × Scope) (hbody : body ∈ p.bodies)
      (hne : x.isOpenBracket → body.1 ≠ x.index) :
      (p.step ts.length before x after).Begins (reach (x :: before)) body.1 body.2 ∧
        ∃ y ∈ after, y.index = body.1 ∧ y.isOpenBracket := by
    obtain ⟨hb, y, hy, hindex, hopen⟩ := h.bodies body hbody
    refine ⟨hbegins hb, y, ?_, hindex, hopen⟩
    rcases List.mem_cons.mp hy with rfl | hy
    · exact absurd hindex.symm (hne hopen)
    · exact hy
  have hahead {y : Lexeme} (hy : y ∈ after) (hbrace : y.is "\x7b") : y.isOpenBracket :=
    ha.isOpenBracket hsplit (List.mem_cons_of_mem x hy) hbrace
  -- the header at this lexeme announces one more bracket
  have hannounced {y : Lexeme} {scope : Scope} (hopen : x.isOpenBracket = false) (hy : y ∈ after)
      (hbrace : y.is "\x7b")
      (hnew : (p.step ts.length before x after).Begins (reach (x :: before)) y.index scope) :
      ∀ body ∈ (y.index, scope) :: p.bodies,
        (p.step ts.length before x after).Begins (reach (x :: before)) body.1 body.2 ∧
          ∃ y ∈ after, y.index = body.1 ∧ y.isOpenBracket := by
    intro body hbody
    rcases List.mem_cons.mp hbody with rfl | hbody
    · exact ⟨hnew, y, hy, rfl, hahead hy hbrace⟩
    · exact hbodies body hbody fun hx => absurd hx (by simp [hopen])
  have hnot {body : Nat × Scope} (hbody : body.2 ≠ .block) :
      ∀ body' ∈ body :: p.bodies, body'.2 ≠ .block :=
    List.forall_mem_cons.mpr ⟨hbody, h.notBlock⟩
  cases hstep.brackets with
  | same hopen hclose hscopes' hbodies' =>
    refine ⟨?_, ?_, hbodies' ▸ h.notBlock⟩
    · rw [Lexeme.opened_of_other hopen hclose, hscopes']
      exact hscopes
    · rw [hbodies']
      exact fun body hbody => hbodies body hbody fun hx => absurd hx (by simp [hopen])
  | opening hopen hscopes' hbodies' =>
    refine ⟨?_, ?_, fun body hbody => h.notBlock body ?_⟩
    · rw [hscopes', Lexeme.opened_of_open hopen]
      refine List.Forall₂.cons ?_ hscopes
      cases hlookup : p.bodies.lookup x.index with
      | none => trivial
      | some scope => exact hbegins (h.bodies _ (mem_of_lookup hlookup)).1
    · rw [hbodies']
      intro body hbody
      obtain ⟨hbody, hne⟩ := List.mem_filter.mp hbody
      exact hbodies body hbody fun _ => by simpa using hne
    · rw [hbodies'] at hbody
      exact (List.mem_filter.mp hbody).1
  | closing hclose hscopes' hbodies' =>
    have hopen := Bracket.not_open_of_isCloseBracket hclose
    refine ⟨?_, ?_, hbodies' ▸ h.notBlock⟩
    · rw [hscopes', Lexeme.opened_of_close hclose, ← List.drop_one, ← List.drop_one]
      exact List.forall₂_drop 1 hscopes
    · rw [hbodies']
      exact fun body hbody => hbodies body hbody fun hx => absurd hx (by simp [hopen])
  | «class» hopen hclose hclass hclasses hscopes' hbodies' =>
    refine ⟨?_, ?_, hbodies' ▸ hnot nofun⟩
    · rw [Lexeme.opened_of_other hopen hclose, hscopes']
      exact hscopes
    · rw [hbodies']
      obtain ⟨y, hy, hindex, hbrace⟩ := mem_of_class? hclass
      rw [← hindex]
      refine hannounced hopen hy hbrace ?_
      change Holds _ _ _
      rw [hclasses]
      exact holds_push hindex.symm
  | function hopen hclose hread hblock hfunctions hscopes' hbodies' =>
    refine ⟨?_, ?_, hbodies' ▸ hnot nofun⟩
    · rw [Lexeme.opened_of_other hopen hclose, hscopes']
      exact hscopes
    · rw [hbodies']
      obtain ⟨y, hy, hindex, hbrace⟩ := mem_of_read?_block hread hblock
      rw [← hindex]
      refine hannounced hopen hy hbrace ?_
      change Holds _ _ _
      rw [hfunctions]
      refine holds_push ?_
      unfold functionRecord
      rw [hblock, hindex]
      rfl
  | «namespace» hopen hclose hlevel hy hbrace hnamespaces hskip hscopes' hbodies' =>
    refine ⟨?_, ?_, hbodies' ▸ hnot nofun⟩
    · rw [Lexeme.opened_of_other hopen hclose, hscopes']
      exact hscopes
    · rw [hbodies']
      refine hannounced hopen hy hbrace ?_
      change Holds _ _ _
      rw [hnamespaces]
      refine holds_push ⟨?_, (List.pairwise_cons.mp hrising.pairwise).1 _ hy, hlater⟩
      unfold namespaceRecord
      exact if_pos hbrace

theorem Reaches.tracks (h : Reaches ts before p) (ha : Accepted ts found)
    (hsplit : Lexeme.ofTokens false ts = before.reverse ++ s) : p.Tracks before s := by
  induction h generalizing s with
  | start => exact ⟨List.Forall₂.nil, nofun, nofun⟩
  | @step p before after x h hsplit' ih =>
    have hs : s = after := by
      rw [hsplit', List.reverse_cons, List.append_assoc] at hsplit
      exact (List.cons.inj (List.append_cancel_left hsplit)).2.symm
    rw [hs]
    exact (ih hsplit').step ha hsplit'

theorem final_split (ts : List Token) :
    Lexeme.ofTokens false ts = (Lexeme.ofTokens false ts).reverse.reverse ++ [] := by
  rw [List.reverse_reverse, List.append_nil]

/-- Nothing is open at the end. -/
theorem scopes_final (ha : Accepted ts found) : (final ts).scopes = [] := by
  have hscopes := ((reaches_final ts).tracks ha (final_split ts)).scopes
  rw [ha.opened_eq_nil] at hscopes
  exact List.forall₂_nil_left_iff.mp hscopes

/-- Nothing is announced at the end. -/
theorem bodies_final (ha : Accepted ts found) : (final ts).bodies = [] := by
  rw [List.eq_nil_iff_forall_not_mem]
  intro body hbody
  obtain ⟨_, y, hy, _⟩ := ((reaches_final ts).tracks ha (final_split ts)).bodies body hbody
  contradiction

end Pass

/-! ### Files -/

/-- The outline of an accepted file. -/
def ofFinal (ts : List Token) (found : List (Nat × Nat)) : Outline :=
  let p := Pass.final ts
  let namespaces := p.finishedNamespaces ts.length
  { brackets := Bracket.table ts.length found
    namespaces
    classes := p.classes.map (resolveClass namespaces)
    functions := p.functions.map (resolveFunction namespaces)
    constants := p.constants.toList }

theorem accepted_of_ofContent {content : ByteArray} (h : Token.ofContent content = .ok ts)
    (hfound : Bracket.pairs ts = .ok found) : Accepted ts found :=
  have htiles := Token.tiles_of_ofContent h
  ⟨⟨htiles.index, hfound⟩, htiles.nonempty, Token.longOperators_of_ofContent h⟩

theorem exists_ofFinal_of_ofTokens {outline : Outline} (h : ofTokens ts = .ok outline) :
    ∃ found, Bracket.pairs ts = .ok found ∧ outline = ofFinal ts found := by
  obtain ⟨found, hfound, houtline⟩ := except_bind_eq_ok.mp h
  exact ⟨found, hfound, (except_pure_eq_ok.mp houtline).symm⟩

theorem parse_eq_ok {name : String} {content : ByteArray} {file : SourceFile}
    (h : SourceFile.parse name content = .ok file) :
    ∃ ts found, Token.ofContent content = .ok ts ∧ Accepted ts found ∧
      file = SourceFile.ofOutline name ts (ofFinal ts found) := by
  unfold SourceFile.parse at h
  obtain ⟨ts, hts, h⟩ := except_bind_eq_ok.mp h
  obtain ⟨outline, houtline, h⟩ := except_bind_eq_ok.mp h
  have hts := except_mapError_eq_ok.mp hts
  obtain ⟨found, hfound, rfl⟩ := exists_ofFinal_of_ofTokens (except_mapError_eq_ok.mp houtline)
  exact ⟨ts, found, hts, accepted_of_ofContent hts hfound, (except_pure_eq_ok.mp h).symm⟩

/-- Names are resolved in records whose extents lie in the file. -/
theorem classFits_ofFinal (h : Accepted ts found) :
    ∀ c ∈ (ofFinal ts found).classes, ClassFits ts.length c := by
  intro c hc
  obtain ⟨c', hc', rfl⟩ := Array.mem_map.mp hc
  obtain ⟨hindex, hbody, hsize⟩ := ((Pass.reaches_final ts).sound h).classes c' hc'
  exact ⟨hindex, hbody, hsize⟩

theorem functionFits_ofFinal (h : Accepted ts found) :
    ∀ f ∈ (ofFinal ts found).functions, FunctionFits ts.length f := by
  intro f hf
  obtain ⟨f', hf', rfl⟩ := Array.mem_map.mp hf
  obtain ⟨hindex, hbody, hsize⟩ := ((Pass.reaches_final ts).sound h).functions f' hf'
  exact ⟨hindex, hbody, hsize⟩

/-- Brackets of a file are paired by its table. -/
theorem Accepted.pairedBracket_iff (h : Accepted ts found) (name : String) {i j : Nat} :
    (SourceFile.ofOutline name ts (ofFinal ts found)).pairedBracket i = some j ↔
      Bracket.Partners found i j := by
  rw [← h.partners_iff]
  exact Option.join_eq_some_iff

end PhpLint.Outline
