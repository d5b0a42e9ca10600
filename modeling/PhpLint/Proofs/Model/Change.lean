import PhpLint.Proofs.Model.Statement

/-!
What one step of the pass does to each part of its state: to the classes and functions, to the
namespace records, and to the brackets that are open or announced.
-/
namespace PhpLint.Outline.Pass

open Lexeme (LongOperators)

/-- The record of the function whose keyword stands at token `i` and whose header has been read. -/
def functionRecord (p : Pass) (i : Nat) (header : Signature) : Function :=
  let methodOf := if header.name.isSome then p.classBody else none
  let classId := if header.name.isSome then methodOf else p.enclosingClass
  { index := i
    name := header.name.map fun x =>
      if methodOf.isSome then x.text else Namespace.qualifyLocal p.namespaceName x.text
    nameIndex := header.name.map (·.index)
    className := classId.bind p.className
    classId
    bodyStarts := if header.body = .none then none else some header.bodyAt
    bodyEnds := match header.body with
      | .expression last => last
      | _ => header.bodyAt
    returnsReference := header.returnsReference
    parameters := header.parameters.map (·.parameter)
    usedVariables := header.usedVariables
    isDeclaration := header.body = .none
    attributes := p.modifiers }

/-- The classes after such a function has been entered into the class around it. -/
def methodClasses (p : Pass) (i : Nat) (header : Signature) : Array Class :=
  match if header.name.isSome then p.classBody else none, (p.functionRecord i header).name with
  | some c, some n => p.classes.modify c (addMethod · p.functions.size n header.parameters)
  | _, _ => p.classes

/-- The changes that a step can make to the classes and functions. -/
inductive Records (p : Pass) (before : List Lexeme) (x : Lexeme) (after : List Lexeme)
    (p' : Pass) : Prop where
  | same (hclasses : p'.classes = p.classes) (hfunctions : p'.functions = p.functions)
  | classEnds {id : Nat} {scopes : List Scope} (hclose : x.isCloseBracket)
    (hscopes : p.scopes = .classBody id :: scopes)
    (hclasses : p'.classes = p.classes.modify id ({ · with bodyEnds := x.index }))
    (hfunctions : p'.functions = p.functions)
  | functionEnds {id : Nat} {scopes : List Scope} (hclose : x.isCloseBracket)
    (hscopes : p.scopes = .functionBody id :: scopes) (hclasses : p'.classes = p.classes)
    (hfunctions : p'.functions = p.functions.modify id ({ · with bodyEnds := x.index }))
  | members {id : Nat} {f : Class → Class}
    (hf : ∀ c, ∃ properties constants, f c = { c with properties, constants })
    (hclasses : p'.classes = p.classes.modify id f) (hfunctions : p'.functions = p.functions)
  | traits {id : Nat} (hkey : x.isKeyword "use") (hid : p.classBody = some id)
    (hclasses : p'.classes = p.classes.modify id fun c =>
      { c with traits := c.traits ++ (Lexeme.readNames after).1 })
    (hfunctions : p'.functions = p.functions)
  | «class» {kind : Class.Kind} {c : Class} (hkind : x.isIdentifier)
    (hclass : p.class? kind (before.head?.any (·.isKeyword "new")) x.index after = some c)
    (hclasses : p'.classes = p.classes.push c) (hfunctions : p'.functions = p.functions)
    (hnamespaces : p'.namespaces = p.namespaces)
    (hbodies : p'.bodies = (c.bodyStarts, .classBody p.classes.size) :: p.bodies)
  | function {isArrow : Bool} {header : Signature} (hkind : x.isIdentifier)
    (hskip : p.skipUntil ≤ x.index) (hread : Signature.read? isArrow after = some header)
    (hclasses : p'.classes = p.classes ∨ ∃ id name, p.classBody = some id ∧
      p'.classes = p.classes.modify id (addMethod · p.functions.size name header.parameters))
    (hfunctions : p'.functions = p.functions.push (p.functionRecord x.index header))
    (hnamespaces : p'.namespaces = p.namespaces)
    (hahead : p'.skipUntil = header.bodyAt)
    (hbodies : p'.bodies = if header.body = .block then
      (header.bodyAt, .functionBody p.functions.size) :: p.bodies else p.bodies)
    (hmethods : p'.classes = p.methodClasses x.index header)

/-- The changes that a step can make to the namespace records. -/
inductive Spaces (p : Pass) (size : Nat) (before : List Lexeme) (x : Lexeme)
    (after : List Lexeme) (p' : Pass) : Prop where
  | same (hnamespaces : p'.namespaces = p.namespaces)
  | ends {record : Nat} {scopes : List Scope} (hclose : x.isCloseBracket)
    (hscopes : p.scopes = .namespaceBody record :: scopes)
    (hnamespaces : p'.namespaces =
      (p.namespaces.modify record ({ · with bodyEnds := some x.index })).push
        (.globalFrom (x.index + 1)))
  | imports {f : ImportMap → ImportMap} (hkey : x.isKeyword "use")
    (hnamespaces : p'.namespaces =
      p.namespaces.modify (p.namespaces.size - 1) fun ns => { ns with imports := f ns.imports })
    (hlevel : p.atNamespaceLevel) (hfront : ¬ before.head?.any (·.is ")"))
    (hturn : p.skipUntil ≤ x.index) (hread : p' = p.importStatement size after)
  | declared {name : String} {y : Lexeme} (hkey : x.isKeyword "namespace") (hy : y ∈ after)
    (hnamespaces : p'.namespaces =
      (p.endNamespace x.index).namespaces.push (namespaceRecord size x.index name y))
    (hname : name = (Lexeme.readName after).1) (hrest : (Lexeme.readName after).2.head? = some y)
    (hbody : y.is "\x7b" ∨ y.isTerminator) (hturn : p.skipUntil ≤ x.index)
    (hskip : p'.skipUntil = y.index)
    (hbodies : p'.bodies = if y.is "\x7b" then
      (y.index, .namespaceBody (p.endNamespace x.index).namespaces.size) :: p.bodies else p.bodies)

/-- The changes that a step can make to the brackets. -/
inductive Brackets (p : Pass) (size : Nat) (before : List Lexeme) (x : Lexeme)
    (after : List Lexeme) (p' : Pass) : Prop where
  | same (hopen : x.isOpenBracket = false) (hclose : x.isCloseBracket = false)
    (hscopes : p'.scopes = p.scopes) (hbodies : p'.bodies = p.bodies)
  | opening (hopen : x.isOpenBracket)
    (hscopes : p'.scopes = (p.bodies.lookup x.index).getD .block :: p.scopes)
    (hbodies : p'.bodies = p.bodies.filter (·.1 != x.index))
  | closing (hclose : x.isCloseBracket) (hscopes : p'.scopes = p.scopes.tail)
    (hbodies : p'.bodies = p.bodies)
  | «class» {kind : Class.Kind} {c : Class} (hopen : x.isOpenBracket = false)
    (hclose : x.isCloseBracket = false)
    (hclass : p.class? kind (before.head?.any (·.isKeyword "new")) x.index after = some c)
    (hclasses : p'.classes = p.classes.push c) (hscopes : p'.scopes = p.scopes)
    (hbodies : p'.bodies = (c.bodyStarts, .classBody p.classes.size) :: p.bodies)
    (hturn : p.skipUntil ≤ x.index)
  | function {isArrow : Bool} {header : Signature} (hopen : x.isOpenBracket = false)
    (hclose : x.isCloseBracket = false) (hread : Signature.read? isArrow after = some header)
    (hblock : header.body = .block)
    (hfunctions : p'.functions = p.functions.push (p.functionRecord x.index header))
    (hscopes : p'.scopes = p.scopes)
    (hbodies : p'.bodies = (header.bodyAt, .functionBody p.functions.size) :: p.bodies)
    (hturn : p.skipUntil ≤ x.index)
  | «namespace» {name : String} {y : Lexeme} (hopen : x.isOpenBracket = false)
    (hclose : x.isCloseBracket = false) (hlevel : p.atNamespaceLevel) (hy : y ∈ after)
    (hbrace : y.is "\x7b")
    (hnamespaces : p'.namespaces =
      (p.endNamespace x.index).namespaces.push (namespaceRecord size x.index name y))
    (hskip : p'.skipUntil = y.index) (hscopes : p'.scopes = p.scopes)
    (hbodies : p'.bodies =
      (y.index, .namespaceBody (p.endNamespace x.index).namespaces.size) :: p.bodies)
    (hturn : p.skipUntil ≤ x.index) (hkey : x.isKeyword "namespace")
    (hrest : (Lexeme.readName after).2.head? = some y)

variable {p p' : Pass} {size i : Nat} {before after r s : List Lexeme} {x y : Lexeme}

/-! ### The parts of the changed states -/

theorem modify_same {α : Type} (xs : Array α) (i : Nat) : xs.modify i (fun a => a) = xs := by
  apply Array.ext_getElem?
  intro j
  rw [Array.getElem?_modify]
  split <;> simp

theorem openBracket_eq (p : Pass) (x : Lexeme) : ∃ modifiers propertyType, p.openBracket x =
    { p with
      scopes := (p.bodies.lookup x.index).getD .block :: p.scopes
      bodies := p.bodies.filter (·.1 != x.index)
      modifiers, propertyType } := by
  unfold openBracket
  dsimp only
  split
  · exact ⟨_, _, rfl⟩
  · exact ⟨_, _, rfl⟩

theorem closeBracket_eq {scope : Scope} {scopes : List Scope} (h : p.scopes = scope :: scopes)
    (x : Lexeme) : ∃ modifiers propertyType, p.closeBracket x =
      { { p with scopes }.endScope x.index scope with modifiers, propertyType } := by
  unfold closeBracket
  rw [h]
  dsimp only
  split
  · exact ⟨_, _, rfl⟩
  · exact ⟨_, _, rfl⟩

theorem closeBracket_of_nil (h : p.scopes = []) (x : Lexeme) : p.closeBracket x = p := by
  unfold closeBracket
  rw [h]

theorem propertyDeclaration_eq (p : Pass) (id : Nat) (before : List Lexeme) (x : Lexeme) :
    ∃ f propertyType, p.propertyDeclaration id before x =
      { p with classes := p.classes.modify id f, propertyType } ∧
      ∀ c : Class, ∃ properties, f c = { c with properties } := by
  unfold propertyDeclaration
  split
  · exact ⟨_, _, rfl, fun c => ⟨_, rfl⟩⟩
  · exact ⟨_, _, rfl, fun c => ⟨_, rfl⟩⟩

theorem constantDeclaration_eq (p : Pass) (s : List Lexeme) :
    ∃ id f constants modifiers, p.constantDeclaration s =
      { p with classes := p.classes.modify id f, constants, modifiers } ∧
      ∀ c : Class, ∃ constants, f c = { c with constants } := by
  have hkeeps (constants : Array Constant) (modifiers : Attributes) :
      ∃ id f constants' modifiers', { p with constants, modifiers } =
        { p with classes := p.classes.modify id f, constants := constants', modifiers := modifiers' } ∧
        ∀ c : Class, ∃ constants, f c = { c with constants } :=
    ⟨0, fun c => c, constants, modifiers, by rw [modify_same], fun c => ⟨c.constants, rfl⟩⟩
  unfold constantDeclaration
  dsimp only
  split
  · exact hkeeps p.constants p.modifiers
  · split
    · exact ⟨_, _, _, _, rfl, fun c => ⟨_, rfl⟩⟩
    · exact hkeeps _ _

theorem importStatement_eq (p : Pass) (size : Nat) (s : List Lexeme) :
    ∃ (f : ImportMap → ImportMap) (skipUntil : Nat), p.importStatement size s =
      { p with
        namespaces := p.namespaces.modify (p.namespaces.size - 1) fun ns =>
          { ns with imports := f ns.imports }
        skipUntil } := by
  unfold importStatement
  split
  · refine ⟨fun m => m, p.skipUntil, ?_⟩
    rw [modify_same]
  · exact ⟨(Import.read s).1.foldl fun m entry => m.bind entry.1 entry.2, _, rfl⟩

theorem addNamespace_eq (p : Pass) (size i : Nat) (name : String) (y : Lexeme) :
    ∃ bodies, p.addNamespace size i name y =
      { p with
        namespaces := (p.endNamespace i).namespaces.push (namespaceRecord size i name y)
        skipUntil := y.index
        bodies } ∧
      bodies = if y.is "\x7b" then
        (y.index, .namespaceBody (p.endNamespace i).namespaces.size) :: p.bodies else p.bodies := by
  obtain ⟨namespaces, heq⟩ := exists_endNamespace_eq p i
  unfold addNamespace
  rw [heq]
  dsimp only
  split
  · exact ⟨_, rfl, rfl⟩
  · exact ⟨_, rfl, rfl⟩

theorem methodClasses_cases (p : Pass) (i : Nat) (header : Signature) :
    p.methodClasses i header = p.classes ∨ ∃ id name, p.classBody = some id ∧
      p.methodClasses i header =
        p.classes.modify id (addMethod · p.functions.size name header.parameters) := by
  unfold methodClasses
  split
  · rename_i id name hmethod _
    split at hmethod
    · exact Or.inr ⟨id, name, hmethod, rfl⟩
    · contradiction
  · exact Or.inl rfl

theorem addFunction_eq (p : Pass) (i : Nat) (header : Signature) : ∃ bodies,
    p.addFunction i header =
      { p with
        classes := p.methodClasses i header
        functions := p.functions.push (p.functionRecord i header)
        modifiers := .empty
        skipUntil := header.bodyAt
        bodies } ∧
      bodies = if header.body = .block then
        (header.bodyAt, .functionBody p.functions.size) :: p.bodies else p.bodies := by
  unfold addFunction
  dsimp only
  split
  · exact ⟨_, rfl, rfl⟩
  · exact ⟨_, rfl, rfl⟩

/-! ### The changes of one step -/

theorem endScope_records {scope : Scope} {scopes : List Scope} (hclose : x.isCloseBracket)
    (hscopes : p.scopes = scope :: scopes)
    (hclasses : p'.classes = ({ p with scopes }.endScope x.index scope).classes)
    (hfunctions : p'.functions = ({ p with scopes }.endScope x.index scope).functions) :
    p.Records before x r p' := by
  cases scope with
  | block => exact .same hclasses hfunctions
  | classBody id => exact .classEnds hclose hscopes hclasses hfunctions
  | functionBody id => exact .functionEnds hclose hscopes hclasses hfunctions
  | namespaceBody record => exact .same hclasses hfunctions

theorem Step.records (h : p.Step size before x r p') : p.Records before x r p' := by
  cases h with
  | opening hopen =>
    obtain ⟨modifiers, type, heq⟩ := openBracket_eq p x
    rw [heq]
    exact .same rfl rfl
  | closing hclose =>
    cases hscopes : p.scopes with
    | nil =>
      rw [closeBracket_of_nil hscopes]
      exact .same rfl rfl
    | cons scope scopes =>
      obtain ⟨modifiers, type, heq⟩ := closeBracket_eq hscopes x
      rw [heq]
      exact endScope_records hclose hscopes rfl rfl
  | readAhead => exact .same rfl rfl
  | statement hopen hclose hskip h =>
    cases h with
    | property =>
      obtain ⟨f, type, heq, hf⟩ := propertyDeclaration_eq p _ before x
      rw [heq]
      refine .members (f := f) (fun c => ?_) rfl rfl
      obtain ⟨properties, hc⟩ := hf c
      exact ⟨properties, c.constants, hc⟩
    | traits hkey hid => exact .traits hkey hid rfl rfl
    | imports =>
      obtain ⟨f, skipUntil, heq⟩ := importStatement_eq p size r
      rw [heq]
      exact .same rfl rfl
    | constants =>
      obtain ⟨id, f, constants, modifiers, heq, hf⟩ := constantDeclaration_eq p r
      rw [heq]
      refine .members (f := f) (fun c => ?_) rfl rfl
      obtain ⟨constants, hc⟩ := hf c
      exact ⟨c.properties, constants, hc⟩
    | «namespace» =>
      obtain ⟨bodies, heq, _⟩ := addNamespace_eq p size x.index (Lexeme.readName r).1 _
      rw [heq]
      exact .same rfl rfl
    | «class» hkind hclass => exact .«class» hkind hclass rfl rfl rfl rfl
    | function hkind hread =>
      obtain ⟨bodies, heq, hbodies⟩ := addFunction_eq p x.index _
      rw [heq]
      exact .function hkind hskip hread (methodClasses_cases p x.index _) rfl rfl rfl hbodies rfl
    | _ => exact .same rfl rfl

theorem Step.spaces (h : p.Step size before x r p') : p.Spaces size before x r p' := by
  cases h with
  | opening hopen =>
    obtain ⟨modifiers, type, heq⟩ := openBracket_eq p x
    rw [heq]
    exact .same rfl
  | closing hclose =>
    cases hscopes : p.scopes with
    | nil =>
      rw [closeBracket_of_nil hscopes]
      exact .same rfl
    | cons scope scopes =>
      obtain ⟨modifiers, type, heq⟩ := closeBracket_eq hscopes x
      rw [heq]
      cases scope with
      | namespaceBody record => exact .ends hclose hscopes rfl
      | _ => exact .same rfl
  | readAhead => exact .same rfl
  | statement hopen hclose hskip h =>
    cases h with
    | property =>
      obtain ⟨f, type, heq, _⟩ := propertyDeclaration_eq p _ before x
      rw [heq]
      exact .same rfl
    | imports hkey hlevel hfront =>
      obtain ⟨f, skipUntil, heq⟩ := importStatement_eq p size r
      exact .imports (f := f) hkey (by rw [heq]) hlevel hfront hskip rfl
    | constants =>
      obtain ⟨id, f, constants, modifiers, heq, _⟩ := constantDeclaration_eq p r
      rw [heq]
      exact .same rfl
    | «namespace» hkey _ hname hbody =>
      obtain ⟨bodies, heq, hbodies⟩ := addNamespace_eq p size x.index (Lexeme.readName r).1 _
      rw [heq]
      exact .declared hkey ((Lexeme.readName_suffix r).mem (hname ▸ List.mem_cons_self)) rfl rfl
        (by rw [hname]; rfl) hbody hskip rfl hbodies
    | function =>
      obtain ⟨bodies, heq, _⟩ := addFunction_eq p x.index _
      rw [heq]
      exact .same rfl
    | _ => exact .same rfl

theorem Step.brackets (h : p.Step size before x r p') : p.Brackets size before x r p' := by
  cases h with
  | opening hopen =>
    obtain ⟨modifiers, type, heq⟩ := openBracket_eq p x
    rw [heq]
    exact .opening hopen rfl rfl
  | closing hclose =>
    cases hscopes : p.scopes with
    | nil =>
      rw [closeBracket_of_nil hscopes]
      exact .closing hclose (by rw [hscopes]; rfl) rfl
    | cons scope scopes =>
      obtain ⟨modifiers, type, heq⟩ := closeBracket_eq hscopes x
      rw [heq]
      exact .closing hclose (by rw [hscopes]; exact scopes_endScope _ _ _) (by cases scope <;> rfl)
  | readAhead hopen hclose => exact .same hopen hclose rfl rfl
  | statement hopen hclose hskip h =>
    have hscopes := h.scopes
    cases h with
    | property =>
      obtain ⟨f, type, heq, _⟩ := propertyDeclaration_eq p _ before x
      rw [heq]
      exact .same hopen hclose rfl rfl
    | imports =>
      obtain ⟨f, skipUntil, heq⟩ := importStatement_eq p size r
      rw [heq]
      exact .same hopen hclose rfl rfl
    | constants =>
      obtain ⟨id, f, constants, modifiers, heq, _⟩ := constantDeclaration_eq p r
      rw [heq]
      exact .same hopen hclose rfl rfl
    | @«namespace» y r' hkey hlevel hname =>
      obtain ⟨bodies, heq, hbodies⟩ := addNamespace_eq p size x.index (Lexeme.readName r).1 y
      rw [heq]
      by_cases hbrace : y.is "\x7b"
      · rw [if_pos hbrace] at hbodies
        exact .«namespace» hopen hclose hlevel
          ((Lexeme.readName_suffix r).mem (hname ▸ List.mem_cons_self)) hbrace rfl rfl rfl hbodies
          hskip hkey (by rw [hname]; rfl)
      · rw [if_neg hbrace] at hbodies
        exact .same hopen hclose rfl hbodies
    | «class» hkind hclass => exact .«class» hopen hclose hclass rfl rfl rfl hskip
    | @function isArrow header hkind hread =>
      obtain ⟨bodies, heq, hbodies⟩ := addFunction_eq p x.index header
      rw [heq]
      by_cases hblock : header.body = .block
      · rw [if_pos hblock] at hbodies
        exact .function hopen hclose hread hblock rfl rfl hbodies hskip
      · rw [if_neg hblock] at hbodies
        exact .same hopen hclose rfl hbodies
    | _ => exact .same hopen hclose hscopes rfl

/-! ### What holds of every record -/

/-- A step keeps what holds of every class and does not tell what its body holds. -/
theorem Step.forall_classes {P : Class → Prop} (h : p.Step size before x r p')
    (hold : ∀ c ∈ p.classes, P c)
    (hkeeps : ∀ (c : Class) traits bodyEnds methods properties constants, P c →
      P { c with traits, bodyEnds, methods, properties, constants })
    (hnew : ∀ kind c, x.isIdentifier →
      p.class? kind (before.head?.any (·.isKeyword "new")) x.index r = some c →
      p'.namespaces = p.namespaces → P c) : ∀ c ∈ p'.classes, P c := by
  cases h.records with
  | same hclasses | functionEnds _ _ hclasses => rwa [hclasses]
  | classEnds _ _ hclasses =>
    rw [hclasses]
    exact forall_modify hold _ fun c _ hc => hkeeps c _ _ _ _ _ hc
  | members hf hclasses =>
    rw [hclasses]
    refine forall_modify hold _ fun c _ hc => ?_
    obtain ⟨properties, constants, heq⟩ := hf c
    rw [heq]
    exact hkeeps c _ _ _ _ _ hc
  | traits _ _ hclasses =>
    rw [hclasses]
    exact forall_modify hold _ fun c _ hc => hkeeps c _ _ _ _ _ hc
  | «class» hkind hclass hclasses _ hnamespaces =>
    rw [hclasses]
    exact forall_push hold (hnew _ _ hkind hclass hnamespaces)
  | function _ _ _ hclasses =>
    rcases hclasses with hclasses | ⟨_, _, _, hclasses⟩
    · rwa [hclasses]
    · rw [hclasses]
      exact forall_modify hold _ fun c _ hc => hkeeps c _ _ _ _ _ hc

/-- A step keeps what holds of every function and does not tell where it ends. -/
theorem Step.forall_functions {P : Function → Prop} (h : p.Step size before x r p')
    (hold : ∀ f ∈ p.functions, P f)
    (hkeeps : ∀ (f : Function) bodyEnds, P f → P { f with bodyEnds })
    (hnew : ∀ isArrow header, x.isIdentifier → Signature.read? isArrow r = some header →
      p'.namespaces = p.namespaces → P (p.functionRecord x.index header)) :
    ∀ f ∈ p'.functions, P f := by
  cases h.records with
  | same _ hfunctions | classEnds _ _ _ hfunctions | members _ _ hfunctions
  | traits _ _ _ hfunctions | «class» _ _ _ hfunctions => rwa [hfunctions]
  | functionEnds _ _ _ hfunctions =>
    rw [hfunctions]
    exact forall_modify hold _ fun f _ hf => hkeeps f _ hf
  | function hkind _ hread _ hfunctions hnamespaces =>
    rw [hfunctions]
    exact forall_push hold (hnew _ _ hkind hread hnamespaces)

end PhpLint.Outline.Pass
