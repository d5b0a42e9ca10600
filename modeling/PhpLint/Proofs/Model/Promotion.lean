import PhpLint.Proofs.Model.Element
import PhpLint.Proofs.Model.FunctionHeader
import PhpLint.Proofs.Model.Turn

/-!
The parameters of the functions of a file, and the properties that a constructor makes of them. Only the
step over the keyword of a function adds properties whose places are in its header.
-/
namespace PhpLint

/-- Whether a function is the constructor of the class with a number. -/
def Function.isConstructorOf (f : Function) (c : Nat) : Bool :=
  f.isMethodOf c && f.name.any (Text.sameFold · "__construct")

/-- The properties with places between two tokens. -/
def Class.propertiesBetween (c : Class) (first last : Nat) : List Property :=
  c.properties.filter fun q => first < q.index ∧ q.index < last

namespace Parameter

variable {s e t : List Lexeme} {fresh : Bool} {depth : Nat}

theorem Declared.next_index (d : Declared) (x : Lexeme) (r : List Lexeme) :
    (d.next x r).parameter.index = d.parameter.index := by
  unfold next
  split
  · rfl
  · split
    · rfl
    · split
      · rfl
      · split <;> rfl

theorem Declared.read_index (d : Declared) (depth : Nat) (group : Option Nat) (s : List Lexeme) :
    (d.read depth group s).parameter.index = d.parameter.index := by
  induction s generalizing d depth group with
  | nil => rfl
  | cons x s ih =>
    unfold read
    split
    · exact ih ..
    · split
      · rfl
      · split
        · exact ih ..
        · exact (ih ..).trans (next_index ..)

/-- Behind the first lexeme of a parameter its list is closed. -/
theorem closing_suffix_tail (h : Lexeme.closing depth s = some t)
    (he : e ∈ listElements Lexeme.toToken "," ")" fresh depth s) : t <:+ e.tail := by
  induction s generalizing fresh depth with
  | nil => contradiction
  | cons x s ih =>
    rw [Lexeme.closing_cons] at h
    rw [listElements_step _ (by decide)] at he
    split at he
    · contradiction
    rename_i hends
    rw [if_neg fun hclose => hends ⟨hclose.1, by rw [hclose.2, Bool.or_true]⟩] at h
    split at he
    · rename_i hsep
      rw [hsep.1, Lexeme.nested_of_is hsep.2 (by decide)] at h
      exact ih h he
    · rcases List.mem_append.mp he with he | he
      · split at he
        · rw [List.mem_singleton.mp he]
          exact Lexeme.closing_suffix h
        · contradiction
      · exact ih h he

end Parameter

namespace Signature

/-- A parameter of a header is read at its place, in front of the body. -/
theorem exists_element {isArrow : Bool} {s : List Lexeme} {header : Signature}
    {d : Parameter.Declared} (h : read? isArrow s = some header) (hd : d ∈ header.parameters) :
    ∃ y e, d = .ofLexemes (y :: e) ∧ (y :: e) <:+ s ∧ ∃ z ∈ e, z.index = header.bodyAt := by
  obtain ⟨list, after, after', z, r, hlist, hafter, huse, htype, _, hat, _, _, hparameters⟩ :=
    read?_parts h
  obtain ⟨paren, hparen, _⟩ := expect_eq_some hlist
  obtain ⟨t, ht, rfl⟩ := Option.map_eq_some_iff.mp hafter
  rw [hparameters] at hd
  obtain ⟨e, he, rfl⟩ := List.mem_map.mp hd
  obtain ⟨hne, hsuffix⟩ := Lexeme.listElements_suffix he
  obtain ⟨y, e, rfl⟩ := List.exists_cons_of_ne_nil hne
  have hlists : list <:+ s := by
    refine List.IsSuffix.trans ?_ ((readName_suffix isArrow _).trans (optional_suffix "&" s))
    rw [hparen]
    exact List.suffix_cons paren list
  have hz : z ∈ e := by
    have hbody := (skipReturnType_suffix htype).trans (readUse_suffix huse)
    exact ((hbody.trans (List.drop_suffix 1 t)).trans
      (Parameter.closing_suffix_tail ht he)).mem List.mem_cons_self
  exact ⟨y, e, rfl, hsuffix.trans hlists, z, hz, hat.symm⟩

/-- The parameters of a header stand in front of its body. -/
theorem between_of_mem_parameters {isArrow : Bool} {s : List Lexeme} {header : Signature}
    {first last : Nat} (h : read? isArrow s = some header) (hrising : Lexeme.Rising first last s) :
    ∀ d ∈ header.parameters, first ≤ d.parameter.index ∧ d.parameter.index < header.bodyAt := by
  intro d hd
  obtain ⟨y, e, rfl, hsuffix, z, hz, hat⟩ := exists_element h hd
  have hindex : (Parameter.Declared.ofLexemes (y :: e)).parameter.index = y.index :=
    Parameter.Declared.read_index ..
  have hy := hrising.suffix hsuffix
  rw [hindex, ← hat]
  exact ⟨(hy.between y List.mem_cons_self).1, (List.pairwise_cons.mp hy.pairwise).1 z hz⟩

end Signature

namespace Outline

variable {ts : List Token} {found : List (Nat × Nat)} {before after s : List Lexeme} {x : Lexeme}

namespace Pass

variable {p p' : Pass} {size c : Nat} {C C' : Class}

/-! ### Properties of the pass -/

/-- Where a property that a step adds has its place: at a variable, or in a header that is read. -/
def AddsAt (p : Pass) (x : Lexeme) (after : List Lexeme) (p' : Pass) (i : Nat) : Prop :=
  p.skipUntil ≤ x.index ∧ (i = x.index ∨ ∃ isArrow header,
    Signature.read? isArrow after = some header ∧ p'.skipUntil = header.bodyAt ∧
      ∃ d ∈ header.parameters, i = d.parameter.index)

/-- A property that a step adds to a class: one that is declared at a variable, or a parameter of a
header that is read. -/
inductive Adds (p : Pass) (before : List Lexeme) (x : Lexeme) (after : List Lexeme)
    (className : String) : Pass → Property → Prop where
  | declared {id : Nat} (hturn : p.skipUntil ≤ x.index) (hkind : x.kind = .variable) :
    Adds p before x after className (p.propertyDeclaration id before x)
      ⟨x.index, x.text, some className, (p.propertyDeclaration id before x).propertyType,
        p.modifiers⟩
  | promoted {p' : Pass} {q : Property} {isArrow : Bool} {header : Signature}
    {d : Parameter.Declared} (hturn : p.skipUntil ≤ x.index)
    (hread : Signature.read? isArrow after = some header) (hskip : p'.skipUntil = header.bodyAt)
    (hd : d ∈ header.parameters) (hpromoted : promotedProperty? className d = some q) :
    Adds p before x after className p' q

theorem Adds.addsAt {className : String} {q : Property}
    (h : p.Adds before x after className p' q) : p.AddsAt x after p' q.index := by
  cases h with
  | declared hturn => exact ⟨hturn, Or.inl rfl⟩
  | promoted hturn hread hskip hd hpromoted =>
    obtain ⟨attributes, _, rfl⟩ := Option.map_eq_some_iff.mp hpromoted
    exact ⟨hturn, Or.inr ⟨_, _, hread, hskip, _, hd, rfl⟩⟩

/-- A class after a step has the properties it had, and those that the step adds. -/
theorem Step.properties_adds (h : p.Step size before x after p') (hC : p'.classes[c]? = some C') :
    (c = p.classes.size ∧ C'.properties = []) ∨
    ∃ C added, p.classes[c]? = some C ∧ C'.name = C.name ∧ C'.properties = C.properties ++ added ∧
      ∀ q ∈ added, p.Adds before x after C.name p' q := by
  have hsame (hC : p.classes[c]? = some C') : ∃ C added, p.classes[c]? = some C ∧
      C'.name = C.name ∧ C'.properties = C.properties ++ added ∧
        ∀ q ∈ added, p.Adds before x after C.name p' q :=
    ⟨C', [], hC, rfl, (List.append_nil _).symm, nofun⟩
  -- a class that changes gets what its change adds
  have hmodify (id : Nat) {g : Class → Class} (hclasses : p'.classes = p.classes.modify id g)
      (hg : ∀ C, (g C).name = C.name ∧ ∃ added, (g C).properties = C.properties ++ added ∧
        ∀ q ∈ added, p.Adds before x after C.name p' q) :
      ∃ C added, p.classes[c]? = some C ∧ C'.name = C.name ∧
        C'.properties = C.properties ++ added ∧ ∀ q ∈ added, p.Adds before x after C.name p' q := by
    rw [hclasses] at hC
    obtain ⟨C, hold, rfl | rfl⟩ := exists_of_getElem?_modify hC
    · exact hsame hold
    · obtain ⟨hname, added, hproperties, hadded⟩ := hg C
      exact ⟨C, added, hold, hname, hproperties, hadded⟩
  have hkeeps (id : Nat) {g : Class → Class} (hclasses : p'.classes = p.classes.modify id g)
      (hg : ∀ C, (g C).name = C.name ∧ (g C).properties = C.properties) :=
    hmodify id hclasses fun C => ⟨(hg C).1, [], by rw [(hg C).2, List.append_nil], nofun⟩
  cases h with
  | opening =>
    obtain ⟨modifiers, type, heq⟩ := openBracket_eq p x
    rw [heq] at hC
    exact Or.inr (hsame hC)
  | closing =>
    cases hscopes : p.scopes with
    | nil =>
      rw [closeBracket_of_nil hscopes] at hC
      exact Or.inr (hsame hC)
    | cons scope scopes =>
      obtain ⟨modifiers, type, heq⟩ := closeBracket_eq hscopes x
      cases scope with
      | classBody id =>
        have hclasses : (p.closeBracket x).classes =
            p.classes.modify id ({ · with bodyEnds := x.index }) := by
          rw [heq]
          rfl
        exact Or.inr (hkeeps id hclasses fun _ => ⟨rfl, rfl⟩)
      | _ =>
        rw [heq] at hC
        exact Or.inr (hsame hC)
  | readAhead => exact Or.inr (hsame hC)
  | statement _ _ hturn h =>
    cases h with
    | @property id hkind =>
      refine Or.inr (hmodify id (g := fun C => { C with properties := C.properties ++
        [⟨x.index, x.text, some C.name, (p.propertyDeclaration id before x).propertyType,
          p.modifiers⟩] }) ?_ fun C => ⟨rfl, _, rfl, ?_⟩)
      · unfold propertyDeclaration
        split <;> rfl
      · rw [List.forall_mem_singleton]
        exact .declared hturn hkind
    | @traits id =>
      exact Or.inr (hkeeps id (g := fun C => { C with traits := C.traits ++ (Lexeme.readNames after).1 })
        rfl fun _ => ⟨rfl, rfl⟩)
    | imports =>
      obtain ⟨f, skipUntil, heq⟩ := importStatement_eq p size after
      rw [heq] at hC
      exact Or.inr (hsame hC)
    | constants =>
      obtain ⟨id, f, constants, modifiers, heq, hf⟩ := constantDeclaration_eq p after
      refine Or.inr (hkeeps id (g := f) ?_ fun C => ?_)
      · rw [heq]
      · obtain ⟨constants, hC⟩ := hf C
        rw [hC]
        exact ⟨rfl, rfl⟩
    | @«namespace» y =>
      obtain ⟨bodies, heq, _⟩ := addNamespace_eq p size x.index (Lexeme.readName after).1 y
      rw [heq] at hC
      exact Or.inr (hsame hC)
    | «class» _ hclass =>
      rcases getElem?_push_cases hC with ⟨rfl, rfl⟩ | hC
      · exact Or.inl ⟨rfl, (members_of_class? hclass).1⟩
      · exact Or.inr (hsame hC)
    | @function isArrow header _ hread =>
      obtain ⟨bodies, heq, _⟩ := addFunction_eq p x.index header
      have hskip : (p.addFunction x.index header).skipUntil = header.bodyAt := by rw [heq]
      rcases methodClasses_cases p x.index header with hclasses | ⟨id, name, _, hclasses⟩
      · rw [heq] at hC
        exact Or.inr (hsame (hclasses ▸ hC))
      · refine Or.inr (hmodify id (g := (addMethod · p.functions.size name header.parameters)) ?_
          fun C => ⟨rfl, _, rfl, ?_⟩)
        · rw [heq]
          exact hclasses
        · intro q hq
          split at hq
          · obtain ⟨d, hd, hq⟩ := List.mem_filterMap.mp hq
            exact .promoted hturn hread hskip hd hq
          · contradiction
    | _ => exact Or.inr (hsame hC)

/-- Where the added properties have their places. -/
theorem Step.properties_cases (h : p.Step size before x after p') (hC : p'.classes[c]? = some C') :
    (c = p.classes.size ∧ C'.properties = []) ∨
    ∃ C added, p.classes[c]? = some C ∧ C'.name = C.name ∧ C'.properties = C.properties ++ added ∧
      ∀ q ∈ added, p.AddsAt x after p' q.index := by
  rcases h.properties_adds hC with hnew | ⟨C, added, hold, hname, happend, hadded⟩
  · exact Or.inl hnew
  · exact Or.inr ⟨C, added, hold, hname, happend, fun q hq => (hadded q hq).addsAt⟩

theorem Step.size_classes_le (h : p.Step size before x after p') :
    p.classes.size ≤ p'.classes.size := by
  cases h.records with
  | same hclasses | functionEnds _ _ hclasses => rw [hclasses]
  | classEnds _ _ hclasses | members _ hclasses | traits _ _ hclasses =>
    rw [hclasses, Array.size_modify]
  | «class» _ _ hclasses =>
    rw [hclasses, Array.size_push]
    exact Nat.le_succ _
  | function _ _ _ hclasses =>
    rcases hclasses with hclasses | ⟨_, _, _, hclasses⟩
    · rw [hclasses]
    · rw [hclasses, Array.size_modify]

/-- Every property of a class was added by a step. -/
theorem Reaches.exists_adds (h : Reaches ts before p) {q : Property} (hC : p.classes[c]? = some C)
    (hq : q ∈ C.properties) : ∃ b p x a, Reaches ts b p ∧
      Lexeme.ofTokens false ts = b.reverse ++ x :: a ∧
        p.Adds b x a C.name (p.step ts.length b x a) q := by
  induction h generalizing C with
  | start => simp [Pass.start] at hC
  | @step p before after x h hsplit ih =>
    rcases (step_cases p ts.length before x after).properties_adds hC with
      ⟨_, hnil⟩ | ⟨C', added, hC', hname, happend, hadded⟩
    · rw [hnil] at hq
      contradiction
    · rw [happend] at hq
      rcases List.mem_append.mp hq with hold | hnew
      · rw [hname]
        exact ih hC' hold
      · rw [hname]
        exact ⟨before, p, x, after, h, hsplit, hadded q hnew⟩

/-- The properties of the pass are in front of what was read. -/
theorem Reaches.properties_lt (h : Reaches ts before p) (ha : Accepted ts found) :
    ∀ (c : Nat) (C : Class), p.classes[c]? = some C → ∀ q ∈ C.properties,
      q.index < reach before ∨ q.index < p.skipUntil := by
  induction h with
  | start => intro c C hC; simp [Pass.start] at hC
  | @step p before after x h hsplit ih =>
    intro c C' hC' q hq
    have hstep := step_cases p ts.length before x after
    have hrising := ha.between hsplit
    have hx := hrising.between x List.mem_cons_self
    have hskip := hstep.skipUntil_le hrising.tail hx.2
    have hreach : reach (x :: before) = x.index + 1 := rfl
    rcases hstep.properties_cases hC' with ⟨_, hnil⟩ | ⟨C, added, hC, _, happend, hadded⟩
    · rw [hnil] at hq
      contradiction
    · rw [happend] at hq
      rcases List.mem_append.mp hq with hq | hq
      · have := ih c C hC q hq
        omega
      · obtain ⟨_, heq | ⟨isArrow, header, hread, hat, d, hd, heq⟩⟩ := hadded q hq
        · omega
        · have := (Signature.between_of_mem_parameters hread hrising.tail d hd).2
          omega

/-! ### Headers of functions -/

/-- The header behind the keyword of a function is read. -/
structure ReadAt (ts : List Token) (before : List Lexeme) (x : Lexeme) (after : List Lexeme) (p : Pass)
    (header : Signature) : Prop where
  reaches : Reaches ts before p
  split : Lexeme.ofTokens false ts = before.reverse ++ x :: after
  turn : p.skipUntil ≤ x.index
  read : ∃ isArrow, Signature.read? isArrow after = some header
  classes : (p.step ts.length before x after).classes = p.methodClasses x.index header
  ahead : (p.step ts.length before x after).skipUntil = header.bodyAt

/-- Every function was read, and later only its end is set. -/
theorem Reaches.functions_readAt (h : Reaches ts before p) (ha : Accepted ts found) :
    ∀ f ∈ p.functions, ∃ b x a q header bodyEnds, ReadAt ts b x a q header ∧
      f = { q.functionRecord x.index header with bodyEnds } ∧ f.headEnd = header.bodyAt := by
  induction h with
  | start => intro f hf; simp [Pass.start] at hf
  | @step p before after x h hsplit ih =>
    cases (step_cases p ts.length before x after).records with
    | same _ hfunctions | classEnds _ _ _ hfunctions | members _ _ hfunctions
    | traits _ _ _ hfunctions | «class» _ _ _ hfunctions => rwa [hfunctions]
    | functionEnds hclose hscopes _ hfunctions =>
      rw [hfunctions]
      refine forall_modify ih _ ?_
      rintro f hf ⟨b, y, a, q, header, _, hread, rfl, hend⟩
      refine ⟨b, y, a, q, header, x.index, hread, rfl, Eq.trans ?_ hend⟩
      exact (h.tracks ha hsplit).headEnd_eq hf rfl (Or.inr ⟨hclose, by rw [hscopes]; rfl⟩)
    | @function isArrow header _ hturn hread _ hfunctions _ hahead _ hclasses =>
      rw [hfunctions]
      exact forall_push ih ⟨before, x, after, p, header, _, ⟨h, hsplit, hturn, ⟨isArrow, hread⟩,
        hclasses, hahead⟩, rfl, headEnd_functionRecord ..⟩

/-- A constructor enters its promoted parameters into its class. -/
theorem properties_of_methodClasses {i : Nat} {header : Signature}
    (h : (p.methodClasses i header)[c]? = some C') : ∃ C, p.classes[c]? = some C ∧
      C'.name = C.name ∧ C'.properties = C.properties ++
        if (p.functionRecord i header).isConstructorOf c then
          header.parameters.filterMap (promotedProperty? C.name) else [] := by
  have hother (hnot : ¬ (p.functionRecord i header).isMethodOf c) (h : p.classes[c]? = some C') :
      ∃ C, p.classes[c]? = some C ∧ C'.name = C.name ∧ C'.properties = C.properties ++
        if (p.functionRecord i header).isConstructorOf c then
          header.parameters.filterMap (promotedProperty? C.name) else [] := by
    have hnone : ¬ (p.functionRecord i header).isConstructorOf c :=
      fun hconstructor => hnot (Bool.and_eq_true_iff.mp hconstructor).1
    exact ⟨C', h, rfl, by rw [if_neg hnone, List.append_nil]⟩
  unfold methodClasses at h
  split at h
  · rename_i id name hid hname
    have hbody : header.name.isSome ∧ p.classBody = some id := by
      split at hid
      · rename_i hnamed
        exact ⟨hnamed, hid⟩
      · contradiction
    obtain hne | heq := ne_or_eq id c
    · rw [Array.getElem?_modify, if_neg hne] at h
      refine hother (fun hmethod => hne ?_) h
      exact Option.some.inj
        (hbody.2.symm.trans ((isMethodOf_functionRecord p i header c).mp hmethod).2)
    · rw [Array.getElem?_modify, if_pos heq] at h
      obtain ⟨C, hC, rfl⟩ := Option.map_eq_some_iff.mp h
      refine ⟨C, heq ▸ hC, rfl, ?_⟩
      have hconstructor : (p.functionRecord i header).isConstructorOf c =
          Text.sameFold name "__construct" := by
        unfold Function.isConstructorOf
        rw [(isMethodOf_functionRecord p i header c).mpr (heq ▸ hbody), hname]
        rfl
      rw [hconstructor]
      rfl
  · rename_i hnone
    refine hother (fun hmethod => ?_) h
    obtain ⟨hnamed, hbody⟩ := (isMethodOf_functionRecord p i header c).mp hmethod
    obtain ⟨n, hn⟩ : ∃ n, (p.functionRecord i header).name = some n :=
      Option.isSome_iff_exists.mp (Function.isMethodOf_iff.mp hmethod).1
    exact hnone c n (by rw [if_pos hnamed, hbody]) hn

/-- Of the properties with places in a header, a class has those that its constructor promotes. -/
theorem ReadAt.propertiesBetween {header : Signature} (h : ReadAt ts before x after p header)
    (ha : Accepted ts found) (hC : (final ts).classes[c]? = some C) :
    C.propertiesBetween x.index header.bodyAt =
      if (p.functionRecord x.index header).isConstructorOf c then
        header.parameters.filterMap (promotedProperty? C.name) else [] := by
  have hsplit := h.split
  have hrising := ha.between hsplit
  have hx := hrising.between x List.mem_cons_self
  obtain ⟨isArrow, hread⟩ := h.read
  have hbetween := Signature.between_of_mem_parameters hread hrising.tail
  have hafter : Lexeme.ofTokens false ts = (x :: before).reverse ++ after := by rw [hsplit]; simp
  -- later steps add properties behind the header, and classes that the function is no method of
  suffices hfinal : header.bodyAt ≤ (final ts).skipUntil ∧ p.classes.size ≤ (final ts).classes.size ∧
      ∀ (c : Nat) (C : Class), (final ts).classes[c]? = some C →
        C.propertiesBetween x.index header.bodyAt =
          if (p.functionRecord x.index header).isConstructorOf c then
            header.parameters.filterMap (promotedProperty? C.name) else [] from hfinal.2.2 c C hC
  refine (h.reaches.step hsplit).final_of_keeps (I := fun _ q => header.bodyAt ≤ q.skipUntil ∧
    p.classes.size ≤ q.classes.size ∧ ∀ (c : Nat) (C : Class), q.classes[c]? = some C →
      C.propertiesBetween x.index header.bodyAt =
        if (p.functionRecord x.index header).isConstructorOf c then
          header.parameters.filterMap (promotedProperty? C.name) else []) hafter ?_ ?_
  · refine ⟨Nat.le_of_eq h.ahead.symm, (step_cases ..).size_classes_le, fun c C hC => ?_⟩
    rw [h.classes] at hC
    obtain ⟨C', hC', hname, hproperties⟩ := properties_of_methodClasses hC
    have hold : C'.propertiesBetween x.index header.bodyAt = [] := by
      refine List.filter_eq_nil_iff.mpr fun q hq => ?_
      have := h.reaches.properties_lt ha c C' hC' q hq
      have := h.turn
      simp only [decide_eq_true_eq]
      omega
    unfold Class.propertiesBetween at hold ⊢
    rw [hproperties, List.filter_append, hold, List.nil_append, hname]
    refine List.filter_eq_self.mpr fun q hq => ?_
    split at hq
    · obtain ⟨d, hd, hq⟩ := List.mem_filterMap.mp hq
      obtain ⟨attributes, _, rfl⟩ := Option.map_eq_some_iff.mp hq
      have := hbetween d hd
      simp only [decide_eq_true_eq]
      omega
    · contradiction
  · rintro b q y _ r hq hs ⟨hskip, hsize, hold⟩
    have hstep := step_cases q ts.length b y r
    have hrising' := ha.between hs
    have hskip' := hstep.skipUntil_le hrising'.tail (hrising'.between y List.mem_cons_self).2
    refine ⟨Nat.le_trans hskip hskip', Nat.le_trans hsize hstep.size_classes_le, fun c C hC => ?_⟩
    rcases hstep.properties_cases hC with ⟨hnew, hnil⟩ | ⟨C', added, hC', hname, happend, hadded⟩
    · have hnone : ¬ (p.functionRecord x.index header).isConstructorOf c := by
        intro hconstructor
        have hmethod := (Bool.and_eq_true_iff.mp hconstructor).1
        have hlt := (h.reaches.sound ha).classBody_lt
          ((isMethodOf_functionRecord p x.index header c).mp hmethod).2
        omega
      unfold Class.propertiesBetween
      rw [hnil, if_neg hnone, List.filter_nil]
    · have hlater : added.filter (fun q => x.index < q.index ∧ q.index < header.bodyAt) = [] := by
        refine List.filter_eq_nil_iff.mpr fun z hz => ?_
        obtain ⟨hturn, heq | ⟨isArrow', header', hread', _, d, hd, heq⟩⟩ := hadded z hz
        · simp only [decide_eq_true_eq]
          omega
        · have := (Signature.between_of_mem_parameters hread' hrising'.tail d hd).1
          simp only [decide_eq_true_eq]
          omega
      have hsame := hold c C' hC'
      unfold Class.propertiesBetween at hsame ⊢
      rw [happend, List.filter_append, hlater, List.append_nil, hname, hsame]

/-- The keyword of a function that the pass comes to. -/
theorem step_function (isArrow : Bool) (hkey : x.isKeyword (if isArrow then "fn" else "function"))
    (hturn : p.skipUntil ≤ x.index) :
    p.step size before x after = p.functionDeclaration isArrow x.index after := by
  have hkind := Lexeme.kind_of_isKeyword hkey
  have hword : Text.fold x.text = if isArrow then "fn" else "function" := by
    unfold Token.isKeyword Text.sameFold at hkey
    rw [beq_iff_eq.mp (Bool.and_eq_true_iff.mp hkey).2]
    cases isArrow <;> decide
  unfold step
  rw [Lexeme.not_isOpenBracket_of_kind (by rw [hkind]; decide),
    Lexeme.not_isCloseBracket_of_isKeyword hkey, if_neg Bool.false_ne_true,
    if_neg Bool.false_ne_true, if_pos hturn]
  unfold statement
  rw [Lexeme.not_isTerminator_of_isKeyword hkey, if_neg Bool.false_ne_true, hkind]
  unfold keyword
  rw [hword]
  cases isArrow <;> rfl

end Pass

end Outline

namespace SourceFile

/-- A header is written behind the keyword of a function at token `k`; an arrow function has no name. -/
def WritesFunction (file : SourceFile) (k : Nat) (w : Signature.Form) : Prop :=
  ∃ before x after, file.lexemes = before ++ x :: (w.lexemes ++ after) ∧ x.index = k ∧
    ∃ isArrow : Bool, x.isKeyword (if isArrow then "fn" else "function") ∧ (isArrow → w.name = none)

/-- A token was read ahead with what stands in front of it. -/
def ReadAhead (file : SourceFile) (k : Nat) : Prop :=
  file.InHeader k ∨ file.InTraits k ∨ file.InImport k

/--
A function has some parameters, and the class of a constructor has those of them as properties that
are promoted.
-/
structure HasParameters (file : SourceFile) (f : Function) (ds : List Parameter.Declared) : Prop where
  parameters : f.parameters =
    ds.map fun d => Outline.resolveParameter (file.namespaceAt f.index) d.parameter
  promoted : ∀ (c : Nat) (C : Class), file.classes[c]? = some C →
    C.propertiesBetween f.index f.headEnd =
      if f.isConstructorOf c then
        (ds.filterMap (Outline.Pass.promotedProperty? C.name)).map
          (Outline.resolveProperty (file.namespaceAt C.index))
      else []

end SourceFile

namespace Outline

variable {ts : List Token} {found : List (Nat × Nat)} {before after : List Lexeme} {x : Lexeme}

namespace Pass

variable {p : Pass} {k : Nat}

/-- A written header is read in a file. -/
theorem read?_of_split {w : Signature.Form} {isArrow : Bool} (ha : Accepted ts found)
    (hsplit : Lexeme.ofTokens false ts = before.reverse ++ x :: (w.lexemes ++ after))
    (hname : isArrow → w.name = none) : ∃ used body,
      Signature.read? isArrow (w.lexemes ++ after) = some ⟨w.reference.isSome, w.name,
        w.parameters.map (·.read), used, body, w.body.index⟩ := by
  have hmem (z : Lexeme) (hz : z ∈ w.lexemes) : z.toToken ∈ ts ∧ z.isSpace = false := by
    have hz := Accepted.mem hsplit (List.mem_cons_of_mem x (List.mem_append_left after hz))
    exact ⟨hz.1, by simpa using hz.2⟩
  exact Signature.read?_lexemes w hname
    (fun z hz => Lexeme.isOpenBracket_of_is ha.long (hmem z hz).1 (by decide))
    (fun z hz => Lexeme.isCloseBracket_of_is ha.long (hmem z hz).1 (by decide))
    (fun z hz => (hmem z hz).2) after

/-- The header behind a keyword is the one that is written there. -/
theorem ReadAt.parameters {header : Signature} {w : Signature.Form} (name : String)
    (h : ReadAt ts before x after p header) (ha : Accepted ts found)
    (hw : (SourceFile.ofOutline name ts (ofFinal ts found)).WritesFunction x.index w) :
    header.parameters = w.parameters.map (·.read) := by
  obtain ⟨b, y, a, hsplit, hindex, _⟩ := hw
  obtain ⟨_, rfl, rfl⟩ := ha.split_unique h.split (hsplit.trans (by rw [List.reverse_reverse]))
    hindex.symm
  obtain ⟨isArrow, hread⟩ := h.read
  have hname : isArrow → w.name = none := fun harrow => by
    rw [harrow] at hread
    exact Signature.name_eq_none_of_read? w hread
  obtain ⟨used, body, hread'⟩ := read?_of_split ha h.split hname
  rw [hread, Option.some.injEq] at hread'
  rw [hread']

/-- A written header that the pass comes to is read. -/
theorem exists_function_of_writesFunction {w : Signature.Form} (name : String)
    (ha : Accepted ts found)
    (hw : (SourceFile.ofOutline name ts (ofFinal ts found)).WritesFunction k w)
    (hk : ¬ (SourceFile.ofOutline name ts (ofFinal ts found)).ReadAhead k) :
    ∃ f ∈ (SourceFile.ofOutline name ts (ofFinal ts found)).functions, f.index = k := by
  obtain ⟨b, x, a, hsplit, rfl, isArrow, hkey, hname⟩ := hw
  have hsplit : Lexeme.ofTokens false ts = b.reverse.reverse ++ x :: (w.lexemes ++ a) :=
    hsplit.trans (by rw [List.reverse_reverse])
  obtain ⟨p, hp⟩ := exists_reaches hsplit
  unfold SourceFile.ReadAhead at hk
  rw [not_or, not_or] at hk
  have hturn : p.skipUntil ≤ x.index := by
    rcases hp.turn_cases name ha hsplit with hturn | hheader | ⟨_, htraits⟩ |
      ⟨b', y, a', hy, hlt, hover, _⟩
    · exact hturn
    · exact absurd hheader hk.1
    · exact absurd htraits hk.2.1
    · exact absurd ⟨b', y, a', hy, hlt, hover⟩ hk.2.2
  obtain ⟨used, body, hread⟩ := read?_of_split ha hsplit hname
  have hnext := hp.step hsplit
  rw [step_function isArrow hkey hturn] at hnext
  unfold functionDeclaration at hnext
  rw [hread] at hnext
  obtain ⟨bodies, heq, _⟩ := addFunction_eq p x.index
    ⟨w.reference.isSome, w.name, w.parameters.map (·.read), used, body, w.body.index⟩
  dsimp only at hnext
  rw [heq] at hnext
  obtain ⟨f, hf, hindex, _⟩ := hnext.exists_function_final ha (s := w.lexemes ++ a)
    (by rw [hsplit]; simp) Array.getElem?_push_size
  have hmem := getElem?_functions name ts found p.functions.size
  rw [hf] at hmem
  exact ⟨_, Array.mem_of_getElem? hmem, hindex⟩

end Pass

/-- A function of a file has the parameters of the header that is written there. -/
theorem hasParameters_of_mem {f : Function} {w : Signature.Form} (name : String)
    (ha : Accepted ts found) (hf : f ∈ (SourceFile.ofOutline name ts (ofFinal ts found)).functions)
    (hw : (SourceFile.ofOutline name ts (ofFinal ts found)).WritesFunction f.index w) :
    (SourceFile.ofOutline name ts (ofFinal ts found)).HasParameters f
      (w.parameters.map (·.read)) := by
  obtain ⟨id, f, hfinal, rfl⟩ := exists_getElem?_of_mem_functions hf
  obtain ⟨b, x, a, p, header, bodyEnds, hread, heq, hend⟩ :=
    (Pass.reaches_final ts).functions_readAt ha f (Array.mem_of_getElem? hfinal)
  have hindex : f.index = x.index := by rw [heq]; rfl
  have hparameters := hread.parameters name ha (hindex ▸ hw)
  have hne : ts ≠ [] := by
    rintro rfl
    exact absurd hread.split (by simp [Lexeme.ofTokens])
  have hat (i : Nat) : (SourceFile.ofOutline name ts (ofFinal ts found)).namespaceAt i =
      namespaceAt ((Pass.final ts).finishedNamespaces ts.length) i :=
    congrArg (namespaceAt · i) (namespaces_ofOutline name ha hne)
  refine ⟨?_, fun c C hC => ?_⟩
  · have hheader : f.parameters = header.parameters.map (·.parameter) := by rw [heq]; rfl
    rw [hat]
    change f.parameters.map _ = _
    rw [hheader, hparameters, List.map_map]
    rfl
  · obtain ⟨C, hC', rfl⟩ := Option.map_eq_some_iff.mp (Array.getElem?_map.symm.trans hC)
    have hpromoted := hread.propertiesBetween ha hC'
    have hconstructor : (p.functionRecord x.index header).isConstructorOf c =
        f.isConstructorOf c := by
      rw [heq]
      rfl
    rw [hparameters, hconstructor, ← hindex, ← hend] at hpromoted
    have hresolved (ns : Namespace) (properties : List Property) (i j : Nat) :
        (properties.map (resolveProperty ns)).filter (fun q => i < q.index ∧ q.index < j) =
          (properties.filter fun q => i < q.index ∧ q.index < j).map (resolveProperty ns) :=
      List.filter_map
    rw [hat]
    refine (hresolved _ C.properties f.index f.headEnd).trans ?_
    unfold Class.propertiesBetween at hpromoted
    rw [hpromoted, apply_ite (List.map _)]
    rfl

end Outline

open Outline

/--
A written header is read as its parameters, whose types are resolved, and a constructor promotes those
that have modifiers. A parameter is not read as what it says exactly if a word of its type could be a
modifier, or a cast in it holds blanks.
-/
theorem SourceFile.parameters_of_header {name : String} {content : ByteArray} {file : SourceFile}
    (h : SourceFile.parse name content = .ok file) {k : Nat} {w : Signature.Form}
    (hw : file.WritesFunction k w) :
    (¬ file.ReadAhead k → ∃ f ∈ file.functions, f.index = k) ∧
    (∀ f ∈ file.functions, f.index = k → file.HasParameters f (w.parameters.map (·.read))) ∧
    (w.parameters.map (·.read) = w.parameters.map (·.declared) ↔ ∀ d ∈ w.parameters, d.Plain) := by
  obtain ⟨ts, found, _, ha, rfl⟩ := parse_eq_ok h
  refine ⟨Pass.exists_function_of_writesFunction name ha hw, fun f hf hk => ?_, ?_⟩
  · exact hasParameters_of_mem name ha hf (hk ▸ hw)
  · rw [List.map_inj_left]
    exact forall₂_congr fun d _ => d.read_eq_declared_iff

/-- A lexeme on the first line that touches the one before. -/
def Lexeme.touching (kind : Token.Kind) (text : String) (index : Nat) : Lexeme :=
  ⟨⟨kind, text, 1, index⟩, true⟩

/-- A lexeme on the first line behind a blank. -/
def Lexeme.apart (kind : Token.Kind) (text : String) (index : Nat) : Lexeme :=
  ⟨⟨kind, text, 1, index⟩, false⟩

/-- The parameter `#[B] private ?C $x = [1, 2]`. -/
def Parameter.Form.promotedWithDefault : Parameter.Form where
  groups := [{
    hash := .touching .punct "#" 11
    opening := .touching .punct "[" 12
    inner := [.touching .name "B" 13]
    closing := .touching .punct "]" 14
    isHash := by decide
    isOpening := by decide
    joined := by decide
    balanced := by decide
    isClosing := by decide }]
  modifiers := [.apart .keyword "private" 16]
  type := [.apart .punct "?" 18, .touching .name "C" 19]
  reference := none
  ellipsis := none
  name := .apart .variable "$x" 21
  default? := some (.apart .punct "=" 23, [.apart .punct "[" 25, .touching .number "1" 26,
    .touching .punct "," 27, .apart .number "2" 29, .touching .punct "]" 30])
  isModifier := by decide
  isType := by decide
  balanced := by decide
  typeEnds := by decide
  isReference := by decide
  isEllipsis := by decide
  isVariable := by decide
  isDefault := by decide

/-- The parameter `D|E &...$y`. -/
def Parameter.Form.variadicReference : Parameter.Form where
  groups := []
  modifiers := []
  type := [.apart .name "D" 33, .touching .punct "|" 34, .touching .name "E" 35]
  reference := some (.apart .punct "&" 37)
  ellipsis := some (.touching .operator "..." 38)
  name := .touching .variable "$y" 39
  default? := none
  isModifier := by decide
  isType := by decide
  balanced := by decide
  typeEnds := by decide
  isReference := by decide
  isEllipsis := by decide
  isVariable := by decide
  isDefault := by decide

/-- The header of a constructor with both, and a comma behind the last one. -/
def Signature.Form.twoParameters : Signature.Form where
  reference := none
  name := some (.apart .name "__construct" 9)
  opening := .touching .punct "(" 10
  parameters := [.promotedWithDefault, .variadicReference]
  list := Parameter.Form.promotedWithDefault.lexemes ++ .touching .punct "," 31 ::
    (Parameter.Form.variadicReference.lexemes ++ [.touching .punct "," 40])
  closing := .touching .punct ")" 41
  captures := none
  returnType := none
  body := .apart .punct "\x7b" 43
  isReference := by decide
  isName := by decide
  isOpening := by decide
  isList := .cons _ (by decide) (.cons _ (by decide) .nil)
  isClosing := by decide
  isBody := by decide

/-- A class with this constructor. -/
def SourceFile.twoParametersSource : String :=
  "<?php class A \x7b function __construct(#[B] private ?C $x = [1, 2], D|E &...$y,) \x7b \x7d \x7d"

/-- A file without `use` whose only function has its keyword at token `k`. -/
theorem SourceFile.not_readAhead {file : SourceFile} {k : Nat}
    (hfunctions : file.functions.toList.map (·.index) = [k])
    (hspaces : ∀ ns ∈ file.namespaces, ns.index = ns.bodyStarts)
    (huse : file.lexemes.all fun x => !x.isKeyword "use") : ¬ file.ReadAhead k := by
  have hnone {before after : List Lexeme} {x : Lexeme} (hsplit : file.lexemes = before ++ x :: after)
      (hkey : x.isKeyword "use") : False := by
    have hx := List.all_eq_true.mp huse x (by rw [hsplit]; simp)
    rw [hkey] at hx
    contradiction
  rintro ((⟨f, hf, hlt, _⟩ | ⟨ns, hns, hlt, hstart⟩) | ⟨_, _, _, hsplit, hkey, _⟩ |
    ⟨_, _, _, himport, _⟩)
  · have hindex : f.index ∈ [k] :=
      hfunctions ▸ List.mem_map_of_mem (Array.mem_toList_iff.mpr hf)
    rw [List.mem_singleton.mp hindex] at hlt
    exact absurd hlt (Nat.lt_irrefl _)
  · rw [hspaces ns hns] at hlt
    omega
  · exact hnone hsplit hkey
  · exact hnone himport.split himport.key

/-- Both parameters are read, and the first one is a property. -/
theorem SourceFile.parameters_of_header_promoted : ∃ file,
    SourceFile.parse "a.php" twoParametersSource.toUTF8 = .ok file ∧
      file.WritesFunction 7 .twoParameters ∧ ∃ f ∈ file.functions, f.index = 7 ∧
        file.HasParameters f (Signature.Form.twoParameters.parameters.map (·.declared)) := by
  have hfacts : (SourceFile.parse "a.php" twoParametersSource.toUTF8).toOption.map
        (fun file => decide (file.functions.toList.map (·.index) = [7] ∧
          (∀ ns ∈ file.namespaces, ns.index = ns.bodyStarts) ∧
          (file.lexemes.all fun x => !x.isKeyword "use") ∧
          file.lexemes = file.lexemes.take 4 ++ .apart .keyword "function" 7 ::
            (Signature.Form.twoParameters.lexemes ++ file.lexemes.drop 31))) = some true := by
    decide +kernel
  cases hparse : SourceFile.parse "a.php" twoParametersSource.toUTF8 with
  | error e =>
    rw [hparse] at hfacts
    contradiction
  | ok file =>
    rw [hparse] at hfacts
    obtain ⟨hfunctions, hspaces, huse, hsplit⟩ := of_decide_eq_true (Option.some.inj hfacts)
    have hwritten : file.WritesFunction 7 .twoParameters :=
      ⟨_, _, _, hsplit, rfl, false, by decide, fun harrow => absurd harrow Bool.false_ne_true⟩
    have hplain : ∀ d ∈ Signature.Form.twoParameters.parameters, d.Plain := by
      unfold Parameter.Form.Plain
      decide
    obtain ⟨hexists, hread, hdeclared⟩ := SourceFile.parameters_of_header hparse hwritten
    obtain ⟨f, hf, hindex⟩ := hexists (SourceFile.not_readAhead hfunctions hspaces huse)
    exact ⟨file, rfl, hwritten, f, hf, hindex, hdeclared.mpr hplain ▸ hread f hf hindex⟩

/-- The parameter `App\Final $x`. -/
def Parameter.Form.modifierInType : Parameter.Form where
  groups := []
  modifiers := []
  type := [.touching .name "App" 17, .touching .nsSeparator "\\" 18, .touching .keyword "Final" 19]
  reference := none
  ellipsis := none
  name := .apart .variable "$x" 21
  default? := none
  isModifier := by decide
  isType := by decide
  balanced := by decide
  typeEnds := by decide
  isReference := by decide
  isEllipsis := by decide
  isVariable := by decide
  isDefault := by decide

/-- The header of a constructor with it. -/
def Signature.Form.modifierInType : Signature.Form where
  reference := none
  name := some (.apart .name "__construct" 15)
  opening := .touching .punct "(" 16
  parameters := [.modifierInType]
  list := Parameter.Form.modifierInType.lexemes
  closing := .touching .punct ")" 22
  captures := none
  returnType := none
  body := .apart .punct "\x7b" 24
  isReference := by decide
  isName := by decide
  isOpening := by decide
  isList := .last _
  isClosing := by decide
  isBody := by decide

/-- A class with this constructor; its parent has the name that is the type. -/
def SourceFile.modifierInTypeSource : String :=
  "<?php class B extends App\\Final \x7b function __construct(App\\Final $x) \x7b \x7d \x7d"

/--
The last word of the type makes the parameter a property and is lost, while the same name is read to its
end behind `extends`.
-/
theorem SourceFile.not_parameters_of_header : ∃ file,
    SourceFile.parse "a.php" modifierInTypeSource.toUTF8 = .ok file ∧
      file.WritesFunction 13 .modifierInType ∧
        (file.functions.toList.map fun f => (f.index, f.parameters.map (·.typeName))) =
          [(13, [some "App\\"])] ∧
        (file.classes.toList.map fun c => (c.parents, c.properties.map (·.name))) =
          [(["App\\Final"], ["$x"])] ∧
        ∀ f ∈ file.functions,
          ¬ file.HasParameters f (Signature.Form.modifierInType.parameters.map (·.declared)) := by
  have hfacts : (SourceFile.parse "a.php" modifierInTypeSource.toUTF8).toOption.map
        (fun file => decide (file.lexemes = file.lexemes.take 8 ++ .apart .keyword "function" 13 ::
            (Signature.Form.modifierInType.lexemes ++ file.lexemes.drop 17) ∧
          (file.functions.toList.map fun f => (f.index, f.parameters.map (·.typeName))) =
            [(13, [some "App\\"])] ∧
          (file.classes.toList.map fun c => (c.parents, c.properties.map (·.name))) =
            [(["App\\Final"], ["$x"])] ∧
          ∀ f ∈ file.functions.toList, f.parameters.map (·.typeName) ≠
            Signature.Form.modifierInType.parameters.map fun d =>
              d.declared.parameter.typeName.map (file.namespaceAt f.index).resolveType)) =
      some true := by
    decide +kernel
  cases hparse : SourceFile.parse "a.php" modifierInTypeSource.toUTF8 with
  | error e =>
    rw [hparse] at hfacts
    contradiction
  | ok file =>
    rw [hparse] at hfacts
    obtain ⟨hsplit, hfunctions, hclasses, hother⟩ := of_decide_eq_true (Option.some.inj hfacts)
    refine ⟨file, rfl, ⟨_, _, _, hsplit, rfl, false, by decide,
      fun harrow => absurd harrow Bool.false_ne_true⟩, hfunctions, hclasses, fun f hf h => ?_⟩
    refine hother f (Array.mem_toList_iff.mpr hf) ?_
    rw [h.parameters, List.map_map, List.map_map]
    rfl

end PhpLint
