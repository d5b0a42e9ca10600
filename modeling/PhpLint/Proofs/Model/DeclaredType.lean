import PhpLint.Proofs.Model.Promotion
import PhpLint.Proofs.Model.Spelling
import PhpLint.Proofs.Model.TypeName

/-!
The types of parameters and properties that are declared by one name. Such a name is kept as it is
written up to the end of the pass, and then resolved in the namespace of its function or class. Main
statement: it is resolved like the names in the header of a class, unless the two readings of a name
take other characters for its end.
-/
namespace PhpLint

namespace Lexeme

variable {x : Lexeme}

/-- A modifier, or the end of what stands in front of the type of a property. -/
def precedesType (x : Lexeme) : Bool :=
  x.promotes || x.is ";" || x.is "\x7b" || x.is "\x7d" || x.is "]"

/-- A lexeme between two properties that share a type. -/
def continuesProperty (x : Lexeme) : Bool :=
  x.kind != .variable && !x.is "\x7b" && !x.is "\x7d" && !x.isTerminator

/-- A type that is one name of a class, perhaps a qualified one. -/
structure WritesName (type : List Lexeme) (name : String) : Prop where
  ne_nil : type ≠ []
  parts : ∀ x ∈ type, x.isNamePart ∧ x.promotes = false
  text : String.join (type.map (·.text)) = name
  isClass : Token.isBuiltinType name = false

theorem kind_of_isNamePart (h : x.isNamePart) :
    x.kind ≠ .punct ∧ x.kind ≠ .operator ∧ x.kind ≠ .cast := by
  unfold isNamePart Token.isIdentifier at h
  refine ⟨?_, ?_, ?_⟩
  all_goals
    intro hkind
    rw [hkind] at h
    contradiction

theorem not_precedesType_of_isNamePart (h : x.isNamePart) (hx : x.promotes = false) :
    x.precedesType = false := by
  have hsign (text : String) : x.is text = false :=
    not_is_of_kind ⟨(kind_of_isNamePart h).1, (kind_of_isNamePart h).2.1⟩
  simp [precedesType, hx, hsign]

theorem not_comma_of_precedesType (h : x.precedesType) : x.is "," = false := by
  unfold precedesType at h
  simp only [Bool.or_eq_true] at h
  rcases h with (((hpromotes | hx) | hx) | hx) | hx
  case inl.inl.inl.inl =>
    apply not_is_of_kind
    rw [Parameter.kind_of_promotes hpromotes]
    decide
  all_goals exact not_is_of_is hx (by decide)

theorem continuesProperty_of_comma (h : x.is ",") : x.continuesProperty := by
  have hkind : x.kind ≠ .variable := by
    rcases kind_of_is h with hkind | hkind
    · simp [hkind]
    · simp [hkind]
  unfold continuesProperty
  rw [bne_iff_ne.mpr hkind, not_is_of_is h (by decide), not_is_of_is h (by decide),
    not_isTerminator_of_is h (by decide)]
  rfl

end Lexeme

/-! ### Parameters -/

namespace Parameter

open Lexeme (WritesName)

variable {type : List Lexeme} {name : String}

namespace Form

variable (w : Form)

/-- What a name declares is read as it is written. -/
theorem typeName_read (h : WritesName w.type name) : w.read.parameter.typeName = some name := by
  have hplain : w.Plain := by
    intro x hx
    obtain ⟨hpart, hpromotes⟩ := h.parts x hx
    refine ⟨hpromotes, ?_⟩
    unfold Lexeme.spelling
    rw [if_neg (by simpa using (Lexeme.kind_of_isNamePart hpart).2.2)]
  have htexts : w.type.map (·.spelling) = w.type.map (·.text) :=
    List.map_congr_left fun x hx => (hplain x hx).2
  rw [w.read_eq_declared_iff.mpr hplain]
  unfold declared withType typeText
  dsimp only
  rw [if_neg h.ne_nil, htexts, h.text]

theorem typeName_ofLexemes (h : WritesName w.type name) (r : List Lexeme) :
    (Declared.ofLexemes (w.lexemes ++ r)).parameter.typeName = some name := by
  unfold Declared.ofLexemes
  rw [element_append w.enclosed_lexemes, read_append]
  exact w.typeName_read h

/-- A parameter with a type does not begin with its name. -/
theorem kind_of_front (h : w.type ≠ []) {x : Lexeme} {s : List Lexeme} (hx : w.lexemes = x :: s) :
    x.kind ≠ .variable := by
  unfold lexemes at hx
  cases hgroups : w.groups with
  | nil =>
    have hwords : w.words ≠ [] := by
      unfold words
      simp [h]
    obtain ⟨y, ys, hy⟩ := List.exists_cons_of_ne_nil hwords
    rw [hgroups, hy] at hx
    obtain ⟨rfl, -⟩ := List.cons.inj hx
    have hpart : y.isTypePart := w.isTypePart_of_mem_words y (by rw [hy]; exact List.mem_cons_self)
    exact (kind_of_isTypePart hpart).1
  | cons g groups =>
    rw [hgroups] at hx
    obtain ⟨rfl, -⟩ := List.cons.inj hx
    rcases Lexeme.kind_of_is g.isHash with hkind | hkind
    · simp [hkind]
    · simp [hkind]

end Form

/-- A parameter that begins with its name has no modifiers. -/
theorem promotion_of_variable {x : Lexeme} (hx : x.kind = .variable) (s : List Lexeme) :
    (Declared.ofLexemes (x :: s)).promotion = none := by
  have hkind : x.kind ≠ .punct ∧ x.kind ≠ .operator := by
    rw [hx]
    decide
  have helement : ∃ r, element 0 (x :: s) = x :: r := by
    rw [element, Lexeme.not_is_of_kind hkind, Lexeme.not_isCloseBracket_of_kind hkind.1,
      Lexeme.not_isOpenBracket_of_kind hkind.1]
    exact ⟨_, rfl⟩
  obtain ⟨r, hr⟩ := helement
  unfold Declared.ofLexemes
  rw [hr, Declared.read_variable hx]
  rfl

end Parameter

namespace Outline

open Lexeme (WritesName)

variable {ts : List Token} {found : List (Nat × Nat)} {before after s type : List Lexeme}
  {x y stop comma : Lexeme} {name : String}

namespace Pass

variable {p p' : Pass} {size c : Nat} {C : Class} {q : Property}

/-! ### Types in front of properties -/

theorem typeBefore_cons (type : String) (x : Lexeme) (before : List Lexeme) :
    typeBefore type (x :: before) =
      if x.is "," then none
      else if x.precedesType then some type
      else typeBefore (x.text ++ type) before := by
  have hpromotes : (x.kind == .keyword &&
      ((Modifier.ofKeyword? x.text).isSome || x.isKeyword "readonly")) = x.promotes := by
    unfold Lexeme.promotes Token.isKeyword
    cases x.kind == .keyword <;> simp
  rw [typeBefore, hpromotes]
  rfl

/-- The words of a name are put together from the last one on. -/
theorem typeBefore_append (hparts : ∀ x ∈ s, x.isNamePart ∧ x.promotes = false)
    (hstop : stop.precedesType) (type : String) (before : List Lexeme) :
    typeBefore type (s.reverse ++ stop :: before) = some (String.join (s.map (·.text)) ++ type) := by
  induction s using List.reverseRecOn generalizing type with
  | nil =>
    rw [List.reverse_nil, List.nil_append, typeBefore_cons,
      Lexeme.not_comma_of_precedesType hstop, if_neg Bool.false_ne_true, if_pos hstop]
    simp
  | append_singleton s x ih =>
    rw [List.forall_mem_append, List.forall_mem_singleton] at hparts
    obtain ⟨hs, hpart, hpromotes⟩ := hparts
    have hkind := Lexeme.kind_of_isNamePart hpart
    rw [List.reverse_concat, List.cons_append, typeBefore_cons,
      Lexeme.not_is_of_kind ⟨hkind.1, hkind.2.1⟩, if_neg Bool.false_ne_true,
      Lexeme.not_precedesType_of_isNamePart hpart hpromotes, if_neg Bool.false_ne_true, ih hs,
      List.map_append, String.join_append, String.append_assoc]
    simp

theorem propertyType_own (h : WritesName type name) (hname : name ≠ "") (hstop : stop.precedesType)
    (p : Pass) (id : Nat) (before : List Lexeme) (x : Lexeme) :
    (p.propertyDeclaration id (type.reverse ++ stop :: before) x).propertyType = some name := by
  unfold propertyDeclaration
  rw [typeBefore_append h.parts hstop, h.text, String.append_empty]
  simp [hname]

/-- Behind a comma the type is that of the property in front of it. -/
theorem propertyType_shared (hcomma : comma.is ",") (p : Pass) (id : Nat) (before : List Lexeme)
    (x : Lexeme) : (p.propertyDeclaration id (comma :: before) x).propertyType = p.propertyType := by
  unfold propertyDeclaration
  rw [typeBefore_cons, hcomma]
  rfl

/-! ### The type of a statement in progress -/

theorem propertyType_classDeclaration (p : Pass) (kind : Class.Kind) (anonymous : Bool) (i : Nat)
    (s : List Lexeme) : (p.classDeclaration kind anonymous i s).propertyType = p.propertyType := by
  unfold classDeclaration
  split <;> rfl

theorem propertyType_functionDeclaration (p : Pass) (isArrow : Bool) (i : Nat) (s : List Lexeme) :
    (p.functionDeclaration isArrow i s).propertyType = p.propertyType := by
  unfold functionDeclaration
  split
  · rename_i header _
    obtain ⟨bodies, heq, _⟩ := addFunction_eq p i header
    rw [heq]
  · rfl

theorem propertyType_namespaceDeclaration (p : Pass) (size i : Nat) (s : List Lexeme) :
    (p.namespaceDeclaration size i s).propertyType = p.propertyType := by
  obtain ⟨namespaces, heq⟩ := exists_endNamespace_eq p i
  unfold namespaceDeclaration
  rw [heq]
  dsimp only
  split
  · rfl
  · split
    · rfl
    · split <;> rfl

theorem propertyType_keyword (p : Pass) (size : Nat) (before : List Lexeme) (x : Lexeme)
    (after : List Lexeme) : (p.keyword size before x after).propertyType = p.propertyType := by
  unfold keyword
  dsimp only
  split
  · split
    · exact propertyType_namespaceDeclaration p size x.index after
    · rfl
  · split
    · split <;> rfl
    · split
      · obtain ⟨f, skipUntil, heq⟩ := importStatement_eq p size after
        rw [heq]
      · rfl
  · exact propertyType_classDeclaration ..
  · exact propertyType_classDeclaration ..
  · exact propertyType_classDeclaration ..
  · exact propertyType_functionDeclaration ..
  · exact propertyType_functionDeclaration ..
  · obtain ⟨id, f, constants, modifiers, heq, _⟩ := constantDeclaration_eq p after
    rw [heq]
  · unfold modifier
    split
    · rfl
    · dsimp only
      split <;> rfl

/-- Up to a brace, a terminator or the next variable a step leaves the type as it is. -/
theorem propertyType_step (hx : x.continuesProperty) (p : Pass) (size : Nat)
    (before after : List Lexeme) :
    (p.step size before x after).propertyType = p.propertyType := by
  unfold Lexeme.continuesProperty at hx
  simp only [Bool.and_eq_true, Bool.not_eq_true', bne_iff_ne] at hx
  obtain ⟨⟨⟨hkind, hopen⟩, hclose⟩, hterminator⟩ := hx
  have hbracket : (p.bracket x).propertyType = p.propertyType := by
    unfold bracket
    split
    · unfold openBracket
      rw [hopen]
      rfl
    · split
      · unfold closeBracket
        rw [hclose]
        split
        · rfl
        · rename_i scope _ _
          cases scope <;> rfl
      · rfl
  have hstatement (p : Pass) : (p.statement size before x after).propertyType = p.propertyType := by
    unfold statement
    rw [hterminator, if_neg Bool.false_ne_true]
    split
    · contradiction
    · split
      · exact propertyType_classDeclaration ..
      · rfl
    · exact propertyType_keyword ..
    · rfl
  rw [step_eq]
  split
  · rw [hstatement, hbracket]
  · exact hbracket

/-- So do several steps. -/
theorem Reaches.propertyType (h : Reaches ts before p)
    (hsplit : Lexeme.ofTokens false ts = before.reverse ++ (s ++ after))
    (hs : ∀ x ∈ s, x.continuesProperty) :
    ∃ p', Reaches ts (s.reverse ++ before) p' ∧ p'.propertyType = p.propertyType := by
  induction s generalizing before p with
  | nil => exact ⟨p, h, rfl⟩
  | cons x s ih =>
    obtain ⟨hx, hs⟩ := List.forall_mem_cons.mp hs
    have hsplit' : Lexeme.ofTokens false ts = (x :: before).reverse ++ (s ++ after) := by
      rw [hsplit]
      simp
    obtain ⟨p', hp', htype⟩ := ih (h.step hsplit) hsplit' hs
    rw [propertyType_step hx] at htype
    exact ⟨p', by simpa using hp', htype⟩

/-- The state at a place is one only. -/
theorem Reaches.unique (h : Reaches ts before p) (h' : Reaches ts before p') : p = p' := by
  induction h generalizing p' with
  | start =>
    cases h'
    rfl
  | step h hsplit ih =>
    cases h' with
    | step h' hsplit' =>
      rw [hsplit] at hsplit'
      obtain ⟨-, rfl⟩ := List.cons.inj (List.append_cancel_left hsplit')
      rw [ih h']

/-! ### Where a type is written -/

/-- A lexeme and all that follows it are found at one place. -/
theorem suffix_unique (ha : Accepted ts found) (hsuffix : (y :: s) <:+ Lexeme.ofTokens false ts)
    (hsplit : Lexeme.ofTokens false ts = before.reverse ++ x :: after) (h : y.index = x.index) :
    y = x ∧ s = after := by
  obtain ⟨front, hfront⟩ := hsuffix
  have hsplit' : Lexeme.ofTokens false ts = front.reverse.reverse ++ y :: s := by
    rw [List.reverse_reverse, hfront]
  exact (ha.split_unique hsplit' hsplit h).2

/-- The first lexeme of a written parameter. -/
theorem exists_front {w : Parameter.Form} {i : Nat}
    (hsplit : Lexeme.ofTokens false ts = before ++ (w.lexemes ++ after))
    (hfront : Lexeme.front w.lexemes = some i) :
    ∃ x r, w.lexemes = x :: r ∧ x.index = i ∧
      Lexeme.ofTokens false ts = before.reverse.reverse ++ x :: (r ++ after) := by
  obtain ⟨x, r, hlexemes⟩ := List.exists_cons_of_ne_nil w.lexemes_ne_nil
  rw [hlexemes] at hfront
  refine ⟨x, r, hlexemes, Option.some.inj hfront, ?_⟩
  rw [hsplit, hlexemes, List.reverse_reverse, List.cons_append]

/-- A parameter that is read at the place of a written one has its type. -/
theorem typeName_of_suffix (ha : Accepted ts found) {w : Parameter.Form}
    (hname : WritesName w.type name)
    (hsplit : Lexeme.ofTokens false ts = before ++ (w.lexemes ++ after))
    (hfront : Lexeme.front w.lexemes = some y.index)
    (hsuffix : (y :: s) <:+ Lexeme.ofTokens false ts) :
    (Parameter.Declared.ofLexemes (y :: s)).parameter.typeName = some name := by
  obtain ⟨x, r, hlexemes, hindex, hplace⟩ := exists_front hsplit hfront
  obtain ⟨rfl, rfl⟩ := suffix_unique ha hsuffix hplace hindex.symm
  rw [← List.cons_append, ← hlexemes]
  exact w.typeName_ofLexemes hname after

/-- The parameters of a header stand in the file. -/
theorem exists_suffix {isArrow : Bool} {header : Signature} {d : Parameter.Declared}
    (hsplit : Lexeme.ofTokens false ts = before.reverse ++ x :: after)
    (hread : Signature.read? isArrow after = some header) (hd : d ∈ header.parameters) :
    ∃ y s, (y :: s) <:+ Lexeme.ofTokens false ts ∧ d = .ofLexemes (y :: s) ∧
      d.parameter.index = y.index := by
  obtain ⟨y, s, rfl, hsuffix, -⟩ := Signature.exists_element hread hd
  have hafter : after <:+ Lexeme.ofTokens false ts :=
    ⟨before.reverse ++ [x], by rw [hsplit]; simp⟩
  exact ⟨y, s, hsuffix.trans hafter, rfl, Parameter.Declared.read_index ..⟩

/-- A property at a variable was declared by the statement there. -/
theorem declared_of_variable (ha : Accepted ts found) (hC : (final ts).classes[c]? = some C)
    (hq : q ∈ C.properties)
    (hsplit : Lexeme.ofTokens false ts = before.reverse ++ x :: after) (hx : x.kind = .variable)
    (hindex : q.index = x.index) :
    ∃ p id, Reaches ts before p ∧
      p.step ts.length before x after = p.propertyDeclaration id before x ∧
      q.typeName = (p.propertyDeclaration id before x).propertyType := by
  obtain ⟨b, p, y, a, hp, hsplit', hadds⟩ := (reaches_final ts).exists_adds hC hq
  generalize hstep : p.step ts.length b y a = p' at hadds
  cases hadds with
  | @declared id _ _ =>
    obtain ⟨rfl, rfl, rfl⟩ := ha.split_unique hsplit' hsplit hindex
    exact ⟨p, id, hp, hstep, rfl⟩
  | promoted _ hread _ hd hpromoted =>
    obtain ⟨z, s, hsuffix, rfl, hz⟩ := exists_suffix hsplit' hread hd
    obtain ⟨attributes, hpromotion, rfl⟩ := Option.map_eq_some_iff.mp hpromoted
    obtain ⟨rfl, rfl⟩ := suffix_unique ha hsuffix hsplit (hz.symm.trans hindex)
    rw [Parameter.promotion_of_variable hx] at hpromotion
    contradiction

/-- A property at the place of a written parameter has its type. -/
theorem typeName_of_promoted (ha : Accepted ts found) (hC : (final ts).classes[c]? = some C)
    (hq : q ∈ C.properties) {w : Parameter.Form} (hname : WritesName w.type name)
    (hsplit : Lexeme.ofTokens false ts = before ++ (w.lexemes ++ after))
    (hfront : Lexeme.front w.lexemes = some q.index) : q.typeName = some name := by
  obtain ⟨b, p, y, a, hp, hsplit', hadds⟩ := (reaches_final ts).exists_adds hC hq
  generalize hstep : p.step ts.length b y a = p' at hadds
  cases hadds with
  | declared _ hkind =>
    obtain ⟨z, r, hlexemes, hindex, hplace⟩ := exists_front hsplit hfront
    obtain ⟨-, rfl, -⟩ := ha.split_unique hplace hsplit' hindex
    exact absurd hkind (w.kind_of_front hname.ne_nil hlexemes)
  | promoted _ hread _ hd hpromoted =>
    obtain ⟨z, s, hsuffix, rfl, hz⟩ := exists_suffix hsplit' hread hd
    obtain ⟨attributes, hpromotion, rfl⟩ := Option.map_eq_some_iff.mp hpromoted
    exact typeName_of_suffix ha hname hsplit (hfront.trans (congrArg some hz)) hsuffix

end Pass

end Outline

namespace SourceFile

/-- A parameter whose first token is token `i` is written with a type. -/
def TypesParameter (file : SourceFile) (type : List Lexeme) (i : Nat) : Prop :=
  ∃ (w : Parameter.Form) (before after : List Lexeme),
    file.lexemes = before ++ (w.lexemes ++ after) ∧ Lexeme.front w.lexemes = some i ∧ w.type = type

/-- A type is written in front of the variable at a token, or of the first of several variables with
commas between them. -/
inductive TypesProperty (file : SourceFile) (c : Class) (type : List Lexeme) : Nat → Prop where
  | own {before after : List Lexeme} {stop x : Lexeme}
    (hsplit : file.lexemes = before ++ stop :: (type ++ x :: after)) (hstop : stop.precedesType)
    (hx : x.kind = .variable) : TypesProperty file c type x.index
  | shared {before middle after : List Lexeme} {v comma x : Lexeme} {y : Property}
    (h : TypesProperty file c type y.index) (hy : y ∈ c.properties)
    (hsplit : file.lexemes = before ++ v :: (middle ++ comma :: x :: after))
    (hv : v.index = y.index) (hmiddle : ∀ z ∈ middle, z.continuesProperty) (hcomma : comma.is ",")
    (hx : x.kind = .variable) : TypesProperty file c type x.index

end SourceFile

namespace Outline

open Lexeme (WritesName)

variable {ts : List Token} {found : List (Nat × Nat)} {type : List Lexeme} {name : String}

namespace Pass

variable {c : Nat} {C : Class}

/-- The statement at a variable has set a type. -/
def SetsType (ts : List Token) (name : String) (i : Nat) : Prop :=
  ∃ before x after p id, Lexeme.ofTokens false ts = before.reverse ++ x :: after ∧ x.index = i ∧
    Reaches ts before p ∧ p.step ts.length before x after = p.propertyDeclaration id before x ∧
    (p.propertyDeclaration id before x).propertyType = some name

/-- The type that is written in front of a property is the one that is kept. -/
theorem typeName_of_typesProperty (file : String) (ha : Accepted ts found)
    (hC : (final ts).classes[c]? = some C) {records : List Namespace} (hname : WritesName type name)
    (hne : name ≠ "") {i : Nat} (h : (SourceFile.ofOutline file ts (ofFinal ts found)).TypesProperty
      (resolveClass records C) type i) :
    ∀ q ∈ C.properties, q.index = i → q.typeName = some name ∧ SetsType ts name i := by
  -- along the properties that share a type: what sets it is followed by what keeps it
  induction h with
  | @own before after stop x hsplit hstop hx =>
    intro q hq hindex
    have hsplit : Lexeme.ofTokens false ts =
        (type.reverse ++ stop :: before.reverse).reverse ++ x :: after := by
      refine Eq.trans hsplit ?_
      simp
    obtain ⟨p, id, hp, hstep, htype⟩ := declared_of_variable ha hC hq hsplit hx hindex
    have hown := propertyType_own hname hne hstop p id before.reverse x
    exact ⟨htype.trans hown, _, x, after, p, id, hsplit, rfl, hp, hstep, hown⟩
  | @shared before middle after v comma x y _ hy hsplit hv hmiddle hcomma hx ih =>
    intro q hq hindex
    obtain ⟨y, hold, rfl⟩ := List.mem_map.mp hy
    obtain ⟨-, b, z, a, p, id, hplace, hz, hp, hstep, htype⟩ := ih y hold rfl
    have hsplit : Lexeme.ofTokens false ts =
        before.reverse.reverse ++ v :: (middle ++ comma :: x :: after) := by
      rw [List.reverse_reverse]
      exact hsplit
    obtain ⟨rfl, rfl, rfl⟩ := ha.split_unique hplace hsplit (hz.trans hv.symm)
    have hnext : Lexeme.ofTokens false ts =
        (z :: before.reverse).reverse ++ ((middle ++ [comma]) ++ x :: after) := by
      rw [hsplit]
      simp
    have hquiet : ∀ z ∈ middle ++ [comma], z.continuesProperty := by
      rw [List.forall_mem_append, List.forall_mem_singleton]
      exact ⟨hmiddle, Lexeme.continuesProperty_of_comma hcomma⟩
    obtain ⟨p', hp', hkept⟩ := (hp.step hplace).propertyType hnext hquiet
    rw [hstep, htype] at hkept
    have hfront : (middle ++ [comma]).reverse ++ z :: before.reverse =
        comma :: (middle.reverse ++ z :: before.reverse) := by
      simp
    rw [hfront] at hp'
    have hlast : Lexeme.ofTokens false ts =
        (comma :: (middle.reverse ++ z :: before.reverse)).reverse ++ x :: after := by
      rw [hsplit]
      simp
    obtain ⟨p'', id', hp'', hstep', htype'⟩ := declared_of_variable ha hC hq hlast hx hindex
    obtain rfl := hp'.unique hp''
    have hshared := (propertyType_shared hcomma p' id' (middle.reverse ++ z :: before.reverse)
      x).trans hkept
    exact ⟨htype'.trans hshared, _, x, after, p', id', hlast, rfl, hp'', hstep', hshared⟩

end Pass

end Outline

namespace Namespace

/-- A stored type that was declared by a name, as a namespace resolves it. -/
structure HasType (ns : Namespace) (name : String) (typeName : Option String) : Prop where
  resolved : typeName = some (ns.resolveType name)
  agrees : ResolvesAlike name.toList → typeName = some (ns.qualify name)

theorem hasType_map {name : String} {typeName : Option String} (ns : Namespace)
    (htype : typeName = some name) (hne : name ≠ "") (hclass : Token.isBuiltinType name = false) :
    ns.HasType name (typeName.map ns.resolveType) := by
  have hresolved : typeName.map ns.resolveType = some (ns.resolveType name) := by
    rw [htype]
    rfl
  refine ⟨hresolved, ?_⟩
  intro halike
  have heq := halike.resolveType_eq (by simpa using hne) (by rwa [String.ofList_toList]) ns
  rw [String.ofList_toList] at heq
  rw [hresolved, heq]

end Namespace

/-! ### Types of a file -/

namespace Outline

open Lexeme (WritesName)

variable {ts : List Token} {found : List (Nat × Nat)} {type : List Lexeme} {name : String}

/-- Names in a file have characters. -/
theorem ne_empty_of_writesName (ha : Accepted ts found) (hname : WritesName type name)
    (h : ∀ x ∈ type, x ∈ Lexeme.ofTokens false ts) : name ≠ "" := by
  obtain ⟨x, s, rfl⟩ := List.exists_cons_of_ne_nil hname.ne_nil
  have hall : Lexeme.ofTokens false ts = [].reverse ++ Lexeme.ofTokens false ts := rfl
  have hx : x.text ≠ "" := ha.nonempty _ (Accepted.mem hall (h x List.mem_cons_self)).1
  intro hempty
  have htext := hname.text
  rw [hempty, List.map_cons, String.join_cons, String.append_eq_empty_iff] at htext
  exact hx htext.1

end Outline

namespace SourceFile

open Outline
open Lexeme (WritesName)

variable {file : SourceFile} {type : List Lexeme} {name : String} {i : Nat}

theorem TypesParameter.mem (h : file.TypesParameter type i) : ∀ x ∈ type, x ∈ file.lexemes := by
  obtain ⟨w, before, after, hsplit, _, rfl⟩ := h
  intro x hx
  rw [hsplit]
  simp [Parameter.Form.lexemes, Parameter.Form.words, hx]

theorem TypesProperty.mem {c : Class} (h : file.TypesProperty c type i) :
    ∀ x ∈ type, x ∈ file.lexemes := by
  induction h with
  | own hsplit =>
    intro x hx
    rw [hsplit]
    simp [hx]
  | shared _ _ _ _ _ _ _ ih => exact ih

theorem IsParsed.hasType_parameter (h : file.IsParsed) {f : Function} (hf : f ∈ file.functions)
    {q : Parameter} (hq : q ∈ f.parameters) (htypes : file.TypesParameter type q.index)
    (hname : WritesName type name) : (file.namespaceAt f.index).HasType name q.typeName := by
  obtain ⟨_, _, hparse⟩ := h
  obtain ⟨ts, found, _, ha, rfl⟩ := parse_eq_ok hparse
  have hne := ne_empty_of_writesName ha hname htypes.mem
  obtain ⟨f', hf', rfl, _⟩ := exists_function_of_mem _ ha hf
  obtain ⟨q', hq', rfl⟩ := List.mem_map.mp hq
  obtain ⟨b, x, a, p, header, bodyEnds, hread, heq, _⟩ :=
    (Pass.reaches_final ts).functions_readAt ha f' hf'
  have hparameters : f'.parameters = header.parameters.map (·.parameter) := by
    rw [heq]
    rfl
  rw [hparameters] at hq'
  obtain ⟨d, hd, rfl⟩ := List.mem_map.mp hq'
  obtain ⟨isArrow, hheader⟩ := hread.read
  obtain ⟨y, s, hsuffix, rfl, hy⟩ := Pass.exists_suffix hread.split hheader hd
  obtain ⟨w, before, after, hsplit, hfront, rfl⟩ := htypes
  have htype := Pass.typeName_of_suffix ha hname hsplit (hfront.trans (congrArg some hy)) hsuffix
  exact Namespace.hasType_map _ htype hne hname.isClass

theorem IsParsed.hasType_property (h : file.IsParsed) {c : Class} (hc : c ∈ file.classes)
    {q : Property} (hq : q ∈ c.properties)
    (htypes : file.TypesParameter type q.index ∨ file.TypesProperty c type q.index)
    (hname : WritesName type name) : (file.namespaceAt c.index).HasType name q.typeName := by
  obtain ⟨_, _, hparse⟩ := h
  obtain ⟨ts, found, _, ha, rfl⟩ := parse_eq_ok hparse
  have hne := ne_empty_of_writesName ha hname (htypes.elim (·.mem) (·.mem))
  obtain ⟨c', hc', rfl, _⟩ := exists_class_of_mem _ ha hc
  obtain ⟨k, hk⟩ := Array.mem_iff_getElem?.mp hc'
  obtain ⟨q', hq', rfl⟩ := List.mem_map.mp hq
  have htype : q'.typeName = some name := by
    rcases htypes with ⟨w, before, after, hsplit, hfront, rfl⟩ | hproperty
    · exact Pass.typeName_of_promoted ha hk hq' hname hsplit hfront
    · exact (Pass.typeName_of_typesProperty _ ha hk hname hne hproperty q' hq' rfl).1
  exact Namespace.hasType_map _ htype hne hname.isClass

/-- The types of a file that are declared by one name, and which names are resolved alike as types
and in the headers of classes. -/
structure DeclaredTypes (file : SourceFile) : Prop where
  parameters : ∀ f ∈ file.functions, ∀ q ∈ f.parameters, ∀ type name,
    file.TypesParameter type q.index → WritesName type name →
      (file.namespaceAt f.index).HasType name q.typeName
  promoted : ∀ c ∈ file.classes, ∀ q ∈ c.properties, ∀ type name,
    file.TypesParameter type q.index → WritesName type name →
      (file.namespaceAt c.index).HasType name q.typeName
  properties : ∀ c ∈ file.classes, ∀ q ∈ c.properties, ∀ type name,
    file.TypesProperty c type q.index → WritesName type name →
      (file.namespaceAt c.index).HasType name q.typeName
  alike : ∀ name, name ≠ "" → Token.isBuiltinType name = false →
    ((∀ ns : Namespace, ns.resolveType name = ns.qualify name) ↔
      Namespace.ResolvesAlike name.toList)

/-- A type that is one name is stored as its namespace resolves it. In every namespace this is how a
parent or an interface is resolved just if all characters of the name can stand in a type, or the
first one that cannot has a separator in front of it and only builtin types behind it. -/
theorem declaredTypes (h : file.IsParsed) : file.DeclaredTypes where
  parameters f hf q hq type name htypes hname := h.hasType_parameter hf hq htypes hname
  promoted c hc q hq type name htypes hname := h.hasType_property hc hq (.inl htypes) hname
  properties c hc q hq type name htypes hname := h.hasType_property hc hq (.inr htypes) hname
  alike name hne hclass := by
    have halike := Namespace.resolvesAlike_iff (s := name.toList) (by simpa using hne)
      (by rwa [String.ofList_toList])
    rwa [String.ofList_toList] at halike

/-- Both properties of `public B $p, $q` have the type that is written in front of the first one. -/
theorem declaredTypes_shared : ∃ file, SourceFile.parse "a.php"
      "<?php namespace N; class A \x7b public B $p, $q; \x7d".toUTF8 = .ok file ∧
    ∃ c ∈ file.classes, ∃ q ∈ c.properties, q.name = "$q" ∧ ∃ type,
      file.TypesProperty c type q.index ∧ WritesName type "B" ∧
        (file.namespaceAt c.index).HasType "B" q.typeName := by
  have hfacts : (SourceFile.parse "a.php"
      "<?php namespace N; class A \x7b public B $p, $q; \x7d".toUTF8).toOption.map
        (fun file => decide (file.lexemes = file.lexemes.take 7 ++ .apart .keyword "public" 12 ::
            ([.apart .name "B" 14] ++ .apart .variable "$p" 16 :: ([] ++
              .touching .punct "," 17 :: .apart .variable "$q" 19 :: file.lexemes.drop 12)) ∧
          ∃ c ∈ file.classes, (∃ y ∈ c.properties, y.index = 16) ∧
            ∃ q ∈ c.properties, q.name = "$q" ∧ q.index = 19)) = some true := by
    decide +kernel
  cases hparse : SourceFile.parse "a.php"
      "<?php namespace N; class A \x7b public B $p, $q; \x7d".toUTF8 with
  | error e =>
    rw [hparse] at hfacts
    contradiction
  | ok file =>
    rw [hparse] at hfacts
    obtain ⟨hsplit, c, hc, ⟨y, hy, hyindex⟩, q, hq, hqname, hqindex⟩ :=
      of_decide_eq_true (Option.some.inj hfacts)
    have hown : file.TypesProperty c [.apart .name "B" 14] y.index :=
      hyindex ▸ .own hsplit (by decide) rfl
    have hnext : file.lexemes =
        (file.lexemes.take 7 ++ [.apart .keyword "public" 12, .apart .name "B" 14]) ++
          .apart .variable "$p" 16 :: ([] ++ .touching .punct "," 17 :: .apart .variable "$q" 19 ::
            file.lexemes.drop 12) := by
      refine hsplit.trans ?_
      simp
    have hshared : file.TypesProperty c [.apart .name "B" 14] q.index :=
      hqindex ▸ .shared hown hy hnext hyindex.symm nofun (by decide) rfl
    have hwrites : WritesName [.apart .name "B" 14] "B" :=
      ⟨by decide, by decide, by decide, by decide⟩
    exact ⟨file, rfl, c, hc, q, hq, hqname, _, hshared, hwrites,
      (declaredTypes ⟨_, _, hparse⟩).properties c hc q hq _ _ hshared hwrites⟩

/-- Behind `extends` the name `X€Y` is read as one, and as a type it holds the imported name `X`. -/
theorem not_typeName_eq_parent : ∃ file, SourceFile.parse "a.php"
      "<?php use A\\X; class B extends X€Y \x7b public X€Y $p; \x7d".toUTF8 = .ok file ∧
    ∃ c ∈ file.classes, ∃ q ∈ c.properties, ∃ type,
      file.TypesProperty c type q.index ∧ WritesName type "X€Y" ∧
        c.parents = [(file.namespaceAt c.index).qualify "X€Y"] ∧
          q.typeName ≠ some ((file.namespaceAt c.index).qualify "X€Y") := by
  have hfacts : (SourceFile.parse "a.php"
      "<?php use A\\X; class B extends X€Y \x7b public X€Y $p; \x7d".toUTF8).toOption.map
        (fun file => decide (file.lexemes = file.lexemes.take 11 ++ .apart .keyword "public" 18 ::
            ([.apart .name "X€Y" 20] ++ .apart .variable "$p" 22 :: file.lexemes.drop 14) ∧
          ∃ c ∈ file.classes, ∃ q ∈ c.properties, q.index = 22 ∧
            c.parents = [(file.namespaceAt c.index).qualify "X€Y"] ∧
              q.typeName ≠ some ((file.namespaceAt c.index).qualify "X€Y"))) = some true := by
    decide +kernel
  cases hparse : SourceFile.parse "a.php"
      "<?php use A\\X; class B extends X€Y \x7b public X€Y $p; \x7d".toUTF8 with
  | error e =>
    rw [hparse] at hfacts
    contradiction
  | ok file =>
    rw [hparse] at hfacts
    obtain ⟨hsplit, c, hc, q, hq, hindex, hparents, htype⟩ :=
      of_decide_eq_true (Option.some.inj hfacts)
    have hown : file.TypesProperty c [.apart .name "X€Y" 20] q.index :=
      hindex ▸ .own hsplit (by decide) rfl
    have hwrites : WritesName [.apart .name "X€Y" 20] "X€Y" :=
      ⟨by decide, by decide, by decide, by decide⟩
    exact ⟨file, rfl, c, hc, q, hq, _, hown, hwrites, hparents, htype⟩

end SourceFile

end PhpLint
