import PhpLint.Proofs.Model.Method

/-!
The top level of a namespace. A bracket is the body of a namespace exactly if it is the brace that a
record begins with, so statements of a namespace are those with no other bracket directly around them.
-/
namespace PhpLint

namespace SourceFile

/-- The body of a namespace starts at `o` with its brace: nothing in front of it ends a statement. -/
def OpensNamespace (file : SourceFile) (o : Nat) : Prop :=
  ∃ ns ∈ file.namespaces, ns.index < o ∧ ns.bodyStarts = o ∧
    ∀ t, file.tokens[o - 1]? = some t → ¬ t.isTerminator

/-- A token lies in no bracket, or directly inside the braces of a namespace. -/
def TopLevel (file : SourceFile) (i : Nat) : Prop :=
  ∀ o, file.InnermostAround o i → file.OpensNamespace o

end SourceFile

namespace Outline

open Lexeme (Rising opened)

variable {ts : List Token} {found : List (Nat × Nat)} {before after s : List Lexeme} {x y : Lexeme}

/-- The token in front of token `k` ends no statement. -/
def Unended (ts : List Token) (k : Nat) : Prop :=
  ∀ t, ts[k - 1]? = some t → ¬ t.isTerminator

/-- A part of a name ends no statement. -/
theorem not_isTerminator_of_isNamePart (h : x.isNamePart) : x.isTerminator = false := by
  have hkind : x.kind ≠ .punct ∧ x.kind ≠ .operator ∧ x.kind ≠ .closeTag := by
    unfold Lexeme.isNamePart at h
    rcases Bool.or_eq_true_iff.mp h with h | h
    · rcases Lexeme.kind_of_isIdentifier h with hkind | hkind <;> rw [hkind] <;> decide
    · rw [beq_iff_eq.mp h]
      decide
  unfold Token.isTerminator Token.is
  simp [hkind]

theorem isNamePart_of_isKeyword {word : String} (h : x.isKeyword word) : x.isNamePart := by
  unfold Token.isKeyword at h
  unfold Lexeme.isNamePart Token.isIdentifier
  rw [(Bool.and_eq_true_iff.mp h).1]
  rfl

/-- Between the keyword of a namespace and its brace stands only its name. -/
theorem unended_of_readName (ha : Accepted ts found)
    (hsplit : Lexeme.ofTokens false ts = before.reverse ++ x :: after) (hx : x.isNamePart)
    (hrest : (Lexeme.readName after).2.head? = some y) : Unended ts y.index := by
  intro t ht
  have hindex := Lexeme.index_of_getElem? ha.indexed ht
  cases hspace : t.isSpace with
  | true => simp [Lexeme.not_isTerminator_of_isSpace hspace]
  | false =>
    obtain ⟨r, hr⟩ := List.head?_eq_some_iff.mp hrest
    obtain ⟨parts, hparts, hnames⟩ := Lexeme.readName_parts after
    rw [hr] at hparts
    have hmem : t ∈ (Lexeme.ofTokens false ts).map (·.toToken) := by
      rw [Lexeme.map_toToken_ofTokens]
      exact List.mem_filter.mpr ⟨List.mem_of_getElem? ht, by simpa using hspace⟩
    obtain ⟨z, hz, rfl⟩ := List.mem_map.mp hmem
    have hrising := (ha.between hsplit).pairwise
    obtain ⟨hlater, hafter⟩ := List.pairwise_cons.mp hrising
    rw [hparts] at hafter hlater
    have hxy := hlater y (by simp)
    rw [hsplit, hparts] at hz
    rcases List.mem_append.mp hz with hz | hz
    · have := (ha.rising hsplit).2.2 z (List.mem_reverse.mp hz) x List.mem_cons_self
      omega
    rcases List.mem_cons.mp hz with rfl | hz
    · simp [not_isTerminator_of_isNamePart hx]
    rcases List.mem_append.mp hz with hz | hz
    · simp [not_isTerminator_of_isNamePart (hnames z hz)]
    have hle : y.index ≤ z.index := by
      rcases List.mem_cons.mp hz with rfl | hz
      · exact Nat.le_refl _
      · exact Nat.le_of_lt ((List.pairwise_cons.mp (List.pairwise_append.mp hafter).2.1).1 z hz)
    omega

namespace Pass

variable {p p' : Pass} {size i k : Nat} {ns : Namespace}

/-! ### Records -/

theorem mem_endNamespace (h : ns ∈ (p.endNamespace i).namespaces) :
    ∃ old ∈ p.namespaces, ∃ bodyEnds, ns = { old with bodyEnds } := by
  unfold Pass.endNamespace at h
  split at h
  · exact ⟨ns, h, ns.bodyEnds, rfl⟩
  · rename_i last hlast
    have hpop (hns : ns ∈ p.namespaces.pop) : ns ∈ p.namespaces := by
      rw [← Array.mem_toList_iff, Array.toList_pop] at hns
      exact Array.mem_toList_iff.mp (List.mem_of_mem_dropLast hns)
    split at h
    · exact ⟨ns, hpop h, ns.bodyEnds, rfl⟩
    · rcases Array.mem_push.mp h with hns | rfl
      · exact ⟨ns, hpop hns, ns.bodyEnds, rfl⟩
      · exact ⟨last, Array.mem_of_back? hlast, some (i - 1), rfl⟩

/-- A record after a step is one from before, global code behind a bracket, or a new namespace. -/
theorem Spaces.mem_cases (h : p.Spaces size before x after p') (hns : ns ∈ p'.namespaces) :
    (∃ old ∈ p.namespaces, ns.index = old.index ∧ ns.bodyStarts = old.bodyStarts) ∨
    ns = .globalFrom (x.index + 1) ∨
    ∃ name y, x.isKeyword "namespace" ∧ (Lexeme.readName after).2.head? = some y ∧
      (y.is "\x7b" ∨ y.isTerminator) ∧ p.skipUntil ≤ x.index ∧ p'.skipUntil = y.index ∧
      (y.is "\x7b" → p'.bodies =
        (y.index, .namespaceBody (p.endNamespace x.index).namespaces.size) :: p.bodies) ∧
      ns = namespaceRecord size x.index name y := by
  have hmodify {record : Nat} {f : Namespace → Namespace} (hns : ns ∈ p.namespaces.modify record f)
      (hf : ∀ old, (f old).index = old.index ∧ (f old).bodyStarts = old.bodyStarts) :
      ∃ old ∈ p.namespaces, ns.index = old.index ∧ ns.bodyStarts = old.bodyStarts := by
    refine forall_modify (P := fun ns => ∃ old ∈ p.namespaces, ns.index = old.index ∧
      ns.bodyStarts = old.bodyStarts) (fun a ha => ⟨a, ha, rfl, rfl⟩) record ?_ ns hns
    rintro a _ ⟨old, hold, hindex, hstart⟩
    exact ⟨old, hold, (hf a).1.trans hindex, (hf a).2.trans hstart⟩
  cases h with
  | same hnamespaces => exact Or.inl ⟨ns, hnamespaces ▸ hns, rfl, rfl⟩
  | ends _ _ hnamespaces =>
    rw [hnamespaces] at hns
    rcases Array.mem_push.mp hns with hns | rfl
    · exact Or.inl (hmodify hns fun _ => ⟨rfl, rfl⟩)
    · exact Or.inr (Or.inl rfl)
  | imports _ hnamespaces =>
    rw [hnamespaces] at hns
    exact Or.inl (hmodify hns fun _ => ⟨rfl, rfl⟩)
  | @declared name y hkey _ hnamespaces _ hrest hbody hturn hskip hbodies =>
    rw [hnamespaces] at hns
    rcases Array.mem_push.mp hns with hns | rfl
    · obtain ⟨old, hold, bodyEnds, rfl⟩ := mem_endNamespace hns
      exact Or.inl ⟨old, hold, rfl, rfl⟩
    · refine Or.inr (Or.inr ⟨name, y, hkey, hrest, hbody, hturn, hskip, fun hbrace => ?_, rfl⟩)
      rw [hbodies, if_pos hbrace]

/-! ### Braces -/

theorem mem_zip_opened_tail {o : Token} {scope : Scope}
    (h : (o, scope) ∈ (opened before).tail.zip p.scopes.tail) :
    (o, scope) ∈ (opened before).zip p.scopes := by
  cases hopened : opened before with
  | nil =>
    rw [hopened] at h
    contradiction
  | cons o' outside =>
    cases hscopes : p.scopes with
    | nil =>
      rw [hopened, hscopes] at h
      simp at h
    | cons scope' scopes =>
      rw [hopened, hscopes] at h
      exact List.mem_cons_of_mem _ h

/-- The bracket of an open scope is one from before or the one just read. -/
theorem Brackets.mem_zip (h : p.Brackets size before x after p') {o : Token} {scope : Scope}
    (hmem : (o, scope) ∈ (opened (x :: before)).zip p'.scopes) :
    (o, scope) ∈ (opened before).zip p.scopes ∨
      x.isOpenBracket ∧ o = x.toToken ∧ scope = (p.bodies.lookup x.index).getD .block := by
  cases h with
  | same hopen hclose hscopes | «class» hopen hclose _ _ hscopes
  | function hopen hclose _ _ _ hscopes | «namespace» hopen hclose _ _ _ _ _ hscopes =>
    rw [Lexeme.opened_of_other hopen hclose, hscopes] at hmem
    exact Or.inl hmem
  | opening hopen hscopes =>
    rw [Lexeme.opened_of_open hopen, hscopes, List.zip_cons_cons] at hmem
    rcases List.mem_cons.mp hmem with heq | hmem
    · obtain ⟨rfl, rfl⟩ := Prod.mk.inj heq
      exact Or.inr ⟨hopen, rfl, rfl⟩
    · exact Or.inl hmem
  | closing hclose hscopes =>
    rw [Lexeme.opened_of_close hclose, hscopes] at hmem
    exact Or.inl (mem_zip_opened_tail hmem)

/-- In front of a bracket that is or will be the body of a namespace stands only its name. -/
structure Braces (p : Pass) (ts : List Token) (before : List Lexeme) : Prop where
  scopes : ∀ o record, (o, .namespaceBody record) ∈ (opened before).zip p.scopes → Unended ts o.index
  bodies : ∀ k record, (k, .namespaceBody record) ∈ p.bodies → Unended ts k

theorem Reaches.braces (h : Reaches ts before p) (ha : Accepted ts found) : p.Braces ts before := by
  induction h with
  | start => exact ⟨nofun, nofun⟩
  | @step p before after x h hsplit ih =>
    have hbrackets := (step_cases p ts.length before x after).brackets
    refine ⟨fun o record hmem => ?_, fun k record hmem => ?_⟩
    · rcases hbrackets.mem_zip hmem with hmem | ⟨_, rfl, hscope⟩
      · exact ih.scopes o record hmem
      · cases hlookup : p.bodies.lookup x.index with
        | none =>
          rw [hlookup] at hscope
          contradiction
        | some scope =>
          rw [hlookup] at hscope
          obtain rfl : Scope.namespaceBody record = scope := hscope
          exact ih.bodies _ record (mem_of_lookup hlookup)
    · cases hbrackets with
      | same _ _ _ hbodies | closing _ _ hbodies => exact ih.bodies k record (hbodies ▸ hmem)
      | opening _ _ hbodies =>
        rw [hbodies] at hmem
        exact ih.bodies k record (List.mem_filter.mp hmem).1
      | «class» _ _ _ _ _ hbodies | function _ _ _ _ _ _ hbodies =>
        rw [hbodies] at hmem
        rcases List.mem_cons.mp hmem with heq | hmem
        · cases heq
        · exact ih.bodies k record hmem
      | «namespace» _ _ _ _ _ _ _ _ hbodies _ hkey hrest =>
        rw [hbodies] at hmem
        rcases List.mem_cons.mp hmem with heq | hmem
        · cases heq
          exact unended_of_readName ha hsplit (isNamePart_of_isKeyword hkey) hrest
        · exact ih.bodies k record hmem

/-- The brace at `k` is announced as the body of a namespace, or it was one when it was open. -/
inductive BraceStage (p : Pass) (before : List Lexeme) (k : Nat) : Prop where
  | announced {record : Nat} (hlookup : p.bodies.lookup k = some (.namespaceBody record))
    (hskip : k ≤ p.skipUntil)
  | passed (hlt : k < reach before) (hscopes : ∀ o scope,
    (o, scope) ∈ (opened before).zip p.scopes → o.index = k → ∃ record, scope = .namespaceBody record)

/-- Between the keyword of a namespace and its brace no other header is read. -/
theorem BraceStage.step (h : p.BraceStage before k) (hreaches : Reaches ts before p)
    (ha : Accepted ts found) (hsplit : Lexeme.ofTokens false ts = before.reverse ++ x :: after) :
    (p.step ts.length before x after).BraceStage (x :: before) k := by
  have hstep := step_cases p ts.length before x after
  have hrising := ha.between hsplit
  have hx := hrising.between x List.mem_cons_self
  cases h with
  | passed hlt hscopes =>
    refine .passed (Nat.lt_succ_of_lt (Nat.lt_of_lt_of_le hlt hx.1)) fun o scope hmem hindex => ?_
    rcases hstep.brackets.mem_zip hmem with hmem | ⟨_, rfl, _⟩
    · exact hscopes o scope hmem hindex
    · omega
  | @announced record hlookup hskip =>
    have hskip' := Nat.le_trans hskip (hstep.skipUntil_le hrising.tail hx.2)
    have htracks := hreaches.tracks ha hsplit
    obtain ⟨_, y, hy, hindex, hopen⟩ := htracks.bodies _ (mem_of_lookup hlookup)
    have hnot (hother : x.isOpenBracket = false) (hturn : p.skipUntil ≤ x.index) : False := by
      rcases List.mem_cons.mp hy with rfl | hy
      · rw [hother] at hopen
        contradiction
      · have := (List.pairwise_cons.mp hrising.pairwise).1 y hy
        dsimp only at hindex
        omega
    cases hstep.brackets with
    | same _ _ _ hbodies | closing _ _ hbodies => exact .announced (hbodies ▸ hlookup) hskip'
    | «class» hother _ _ _ _ _ hturn | function hother _ _ _ _ _ _ hturn
    | «namespace» hother _ _ _ _ _ _ _ _ hturn => exact (hnot hother hturn).elim
    | opening hopen' hscopes hbodies =>
      by_cases hk : k = x.index
      · refine .passed (hk ▸ Nat.lt_succ_self _) fun o scope hmem hindex => ?_
        rcases hstep.brackets.mem_zip hmem with hmem | ⟨_, _, rfl⟩
        · have ho := (Lexeme.opened_sublist before).subset (List.of_mem_zip hmem).1
          obtain ⟨z, hz, rfl⟩ := List.mem_map.mp ho
          have := (ha.rising hsplit).2.2 z hz x List.mem_cons_self
          omega
        · rw [← hk, hlookup]
          exact ⟨record, rfl⟩
      · refine .announced ((hbodies ▸ lookup_filter_of_ne hk p.bodies).trans hlookup) hskip'

/-- The brace that a record begins with is the body of a namespace. -/
theorem Reaches.braceStage (h : Reaches ts before p) (ha : Accepted ts found) :
    ∀ ns ∈ p.namespaces, ns.index < ns.bodyStarts → Unended ts ns.bodyStarts →
      p.BraceStage before ns.bodyStarts := by
  induction h with
  | start =>
    intro ns hns hlt
    rw [Array.mem_singleton.mp hns] at hlt
    exact absurd hlt (Nat.lt_irrefl _)
  | @step p before after x h hsplit ih =>
    intro ns hns hlt hunended
    rcases (step_cases p ts.length before x after).spaces.mem_cases hns with
      ⟨old, hold, hindex, hstart⟩ | rfl | ⟨name, y, _, hrest, hbody, _, hskip, hbodies, rfl⟩
    · rw [hindex, hstart] at hlt
      rw [hstart] at hunended ⊢
      exact (ih old hold hlt hunended).step h ha hsplit
    · exact absurd hlt (Nat.lt_irrefl _)
    · unfold namespaceRecord at hunended ⊢
      dsimp only at hunended ⊢
      by_cases hbrace : y.is "\x7b"
      · rw [if_pos hbrace]
        have hlookup := congrArg (List.lookup y.index) (hbodies hbrace)
        exact .announced (hlookup.trans List.lookup_cons_self) (Nat.le_of_eq hskip.symm)
      · -- the token in front of the body would be the terminator
        rw [if_neg hbrace] at hunended
        obtain ⟨r, hr⟩ := List.head?_eq_some_iff.mp hrest
        have hy : y ∈ x :: after := List.mem_cons_of_mem x
          ((Lexeme.readName_suffix after).mem (hr ▸ List.mem_cons_self))
        exact absurd (hbody.resolve_left hbrace) (hunended _ (ha.getElem?_index hsplit hy))

/-! ### Records at the end -/

/-- A record that starts in front of the place of a state is left where it is. -/
theorem Reaches.holds_final (h : Reaches ts before p) (ha : Accepted ts found)
    (hsplit : Lexeme.ofTokens false ts = before.reverse ++ s) {P : Nat → Nat → Prop} {record : Nat}
    (hns : Holds p.namespaces (fun ns => P ns.index ns.bodyStarts ∧ ns.index < reach before) record) :
    Holds (final ts).namespaces (fun ns => P ns.index ns.bodyStarts ∧ ns.index < reach before)
      record := by
  refine h.final_of_keeps (I := fun _ q => Holds q.namespaces (fun ns =>
    P ns.index ns.bodyStarts ∧ ns.index < reach before) record) hsplit hns ?_
  intro b q x hmem r _ hs hns
  have hx := ((ha.between hsplit).between x hmem).1
  refine (step_cases q ts.length b x r).holds_namespaces (fun ns hns => ?_) (fun ns _ _ hns => hns) hns
  have := hns.2
  omega

/-- No record that starts in front of what is left is added later. -/
theorem Reaches.exists_of_final (h : Reaches ts before p)
    (hsplit : Lexeme.ofTokens false ts = before.reverse ++ s) {k : Nat} (hk : ∀ y ∈ s, k ≤ y.index) :
    ∀ ns ∈ (final ts).namespaces, ns.index < k →
      ∃ old ∈ p.namespaces, ns.index = old.index ∧ ns.bodyStarts = old.bodyStarts := by
  refine h.final_of_keeps (I := fun _ q => ∀ ns ∈ q.namespaces, ns.index < k →
    ∃ old ∈ p.namespaces, ns.index = old.index ∧ ns.bodyStarts = old.bodyStarts) hsplit
    (fun ns hns _ => ⟨ns, hns, rfl, rfl⟩) ?_
  intro b q x hx r _ _ hold ns hns hlt
  rcases (step_cases q ts.length b x r).spaces.mem_cases hns with
    ⟨ns', hns', hindex, hstart⟩ | rfl | ⟨name, y, _, _, _, _, _, _, rfl⟩
  · obtain ⟨old, hmem, hindex', hstart'⟩ := hold ns' hns' (hindex ▸ hlt)
    exact ⟨old, hmem, hindex.trans hindex', hstart.trans hstart'⟩
  · exact absurd (hk x hx) (Nat.not_le.mpr (Nat.lt_of_succ_lt hlt))
  · exact absurd (hk x hx) (Nat.not_le.mpr hlt)

end Pass

/-- A record of a file is one of the pass, but for its end. -/
theorem exists_of_mem_namespaces {name : String} (ha : Accepted ts found) (hts : ts ≠ [])
    {ns : Namespace} (hns : ns ∈ (SourceFile.ofOutline name ts (ofFinal ts found)).namespaces) :
    ∃ old ∈ (Pass.final ts).namespaces, ∃ bodyEnds, ns = { old with bodyEnds } := by
  rw [namespaces_ofOutline name ha hts, Pass.finishedNamespaces_eq ha hts] at hns
  have hns := Array.mem_toList_iff.mp (List.mem_filter.mp hns).1
  refine forall_modify (P := fun ns => ∃ old ∈ (Pass.final ts).namespaces, ∃ bodyEnds,
    ns = { old with bodyEnds }) (fun ns hns => ⟨ns, hns, ns.bodyEnds, rfl⟩) _ ?_ ns hns
  rintro a _ ⟨old, hold, bodyEnds, rfl⟩
  rcases Pass.endLast_cases (ts.length - 1) { old with bodyEnds } with heq | ⟨heq, _⟩
  · exact ⟨old, hold, _, heq⟩
  · exact ⟨old, hold, bodyEnds, heq⟩

/-- The innermost bracket around a lexeme is the last one that is open in front of it. -/
theorem innermostAround_iff (name : String) (ha : Accepted ts found)
    (hsplit : Lexeme.ofTokens false ts = before.reverse ++ x :: after)
    (hx : x.isCloseBracket = false) {o : Nat} :
    (SourceFile.ofOutline name ts (ofFinal ts found)).InnermostAround o x.index ↔
      (opened before).head?.map (·.index) = some o := by
  constructor
  · rintro ⟨e, hpair, hlt, hle, hinner⟩
    have hpair : (o, e) ∈ found := by
      rcases (ha.pairedBracket_iff name).mp hpair with hpair | hpair
      · exact hpair
      · have := ha.lt_of_mem hpair
        omega
    have hmem := (ha.mem_opened_iff hsplit).mpr ⟨e, hpair, hlt, Nat.le_of_lt hle⟩
    cases hopened : opened before with
    | nil =>
      rw [hopened] at hmem
      contradiction
    | cons t outside =>
      obtain ⟨e', hpair', hlt', hle', _⟩ := innermostAround_of_opened name ha hsplit hx hopened
      have hge := hinner t.index e' hpair' hlt' hle'
      have hle := ha.le_innermost hsplit hopened hpair hlt (Nat.le_of_lt hle)
      exact congrArg some (Nat.le_antisymm hge hle)
  · intro hhead
    obtain ⟨t, ht, rfl⟩ := Option.map_eq_some_iff.mp hhead
    obtain ⟨outside, hopened⟩ := List.head?_eq_some_iff.mp ht
    exact innermostAround_of_opened name ha hsplit hx hopened

namespace Pass

variable {p : Pass}

/-- An open bracket is the body of a namespace exactly if it is the brace of one. -/
theorem Reaches.opensNamespace_iff (name : String) (h : Reaches ts before p) (ha : Accepted ts found)
    (hsplit : Lexeme.ofTokens false ts = before.reverse ++ x :: after) {o : Token}
    {outside : List Token} {scope : Scope} {scopes : List Scope}
    (hopened : opened before = o :: outside) (hscopes : p.scopes = scope :: scopes) :
    (SourceFile.ofOutline name ts (ofFinal ts found)).OpensNamespace o.index ↔
      ∃ record, scope = .namespaceBody record := by
  have hts : ts ≠ [] := by
    rintro rfl
    exact absurd hsplit (by simp [Lexeme.ofTokens])
  have hmem : (o, scope) ∈ (opened before).zip p.scopes := by
    rw [hopened, hscopes]
    exact List.mem_cons_self
  have hreach : o.index < reach before := by
    obtain ⟨z, hz, rfl⟩ := List.mem_map.mp
      ((Lexeme.opened_sublist before).subset (hopened ▸ List.mem_cons_self))
    cases before with
    | nil => contradiction
    | cons y before =>
      rcases List.mem_cons.mp hz with rfl | hz
      · exact Nat.lt_succ_self _
      · exact Nat.lt_succ_of_lt ((List.pairwise_cons.mp (ha.rising hsplit).2.1).1 z hz)
  have htokens (k : Nat) (t : Token) :
      (SourceFile.ofOutline name ts (ofFinal ts found)).tokens[k]? = some t ↔ ts[k]? = some t := by
    rw [← Array.getElem?_toList]
    rfl
  constructor
  · rintro ⟨ns, hns, hlt, hstart, hunended⟩
    obtain ⟨old, hold, _, rfl⟩ := exists_of_mem_namespaces ha hts hns
    dsimp only at hlt hstart
    obtain ⟨ns, hns, hindex, hstart'⟩ := h.exists_of_final hsplit
      (fun y hy => ((ha.between hsplit).between y hy).1) old hold (by omega)
    have hstart := hstart'.symm.trans hstart
    have hstage := h.braceStage ha ns hns (by omega) (by
      rw [hstart]
      exact fun t ht => hunended t ((htokens _ t).mpr ht))
    rw [hstart] at hstage
    cases hstage with
    | announced hlookup =>
      obtain ⟨_, y, hy, hindex, _⟩ := (h.tracks ha hsplit).bodies _ (mem_of_lookup hlookup)
      have := ((ha.between hsplit).between y hy).1
      dsimp only at hindex
      omega
    | passed _ hscopes => exact hscopes o scope hmem rfl
  · rintro ⟨record, rfl⟩
    have hbegins := (h.tracks ha hsplit).scopes
    rw [hopened, hscopes] at hbegins
    have hheld := (List.forall₂_cons.mp hbegins).1
    obtain ⟨ns, hns, hstart, hlt⟩ := exists_namespace_of_holds name ha
      (P := fun index bodyStarts => bodyStarts = o.index ∧ index < o.index) <|
      (h.holds_final ha hsplit (P := fun index bodyStarts => bodyStarts = o.index ∧ index < o.index)
        (hheld.imp fun ns hns => ⟨⟨hns.1, hns.2.1⟩, hns.2.2⟩)).imp fun ns hns =>
          ⟨hns.1, Nat.lt_of_lt_of_le hns.2 (ha.reach_le hsplit)⟩
    refine ⟨ns, hns, hlt, hstart, fun t ht => ?_⟩
    exact (h.braces ha).scopes o record hmem t ((htokens _ t).mp ht)

/-- The pass is at the level of a namespace exactly at the top level of the file. -/
theorem Reaches.atNamespaceLevel_iff (name : String) (h : Reaches ts before p)
    (ha : Accepted ts found) (hsplit : Lexeme.ofTokens false ts = before.reverse ++ x :: after)
    (hx : x.isCloseBracket = false) : p.atNamespaceLevel ↔
      (SourceFile.ofOutline name ts (ofFinal ts found)).TopLevel x.index := by
  have hlength := (h.tracks ha hsplit).scopes
  unfold SourceFile.TopLevel
  simp only [innermostAround_iff name ha hsplit hx]
  cases hscopes : p.scopes with
  | nil =>
    rw [hscopes] at hlength
    have hopened : opened before = [] := List.forall₂_nil_right_iff.mp hlength
    rw [hopened]
    have hlevel : p.atNamespaceLevel := by
      unfold atNamespaceLevel
      rw [hscopes]
    exact iff_of_true hlevel nofun
  | cons scope scopes =>
    rw [hscopes] at hlength
    obtain ⟨o, outside, _, _, hopened⟩ := List.forall₂_cons_right_iff.mp hlength
    have hiff := h.opensNamespace_iff name ha hsplit hopened hscopes
    rw [hopened]
    simp only [List.head?_cons, Option.map_some, Option.some.injEq, forall_eq']
    rw [hiff]
    unfold atNamespaceLevel
    rw [hscopes]
    cases scope <;> simp

end Pass

end Outline

end PhpLint
