import PhpLint.Proofs.Model.Pass

/-!
What one statement does to the state of the pass. Whatever the whole pass keeps is shown for each
of these changes.
-/
namespace PhpLint.Outline.Pass

/-- The state after a class has been declared. -/
def addClass (p : Pass) (c : Class) : Pass :=
  { p with classes := p.classes.push c, modifiers := .empty }.announce
    c.bodyStarts (.classBody p.classes.size)

/-- The record of a namespace whose keyword stands at token `i`, and whose body or end is at `y`. -/
def namespaceRecord (size i : Nat) (name : String) (y : Lexeme) : Namespace where
  index := i
  name := Text.dropLeading '\\' name
  bodyStarts := if y.is "\x7b" then y.index else y.index + 1
  bodyEnds := some (size - 1)
  imports := []

/-- The state after a namespace has been declared at token `i`. -/
def addNamespace (p : Pass) (size i : Nat) (name : String) (y : Lexeme) : Pass :=
  let p := p.endNamespace i
  let record := p.namespaces.size
  let p := { p with
    namespaces := p.namespaces.push (namespaceRecord size i name y)
    skipUntil := y.index }
  if y.is "\x7b" then p.announce y.index (.namespaceBody record) else p

/-- The changes that the statement at lexeme `x` can make. -/
inductive Statement (p : Pass) (size : Nat) (before : List Lexeme) (x : Lexeme)
    (after : List Lexeme) : Pass → Prop where
  | nothing : Statement p size before x after p
  | newStatement : Statement p size before x after p.newStatement
  | modifiers (m : Attributes) : Statement p size before x after { p with modifiers := m }
  | property {id : Nat} (hkind : x.kind = .variable) (hid : p.classBody = some id) :
    Statement p size before x after (p.propertyDeclaration id before x)
  | traits {id : Nat} (hkey : x.isKeyword "use") (hid : p.classBody = some id) :
    Statement p size before x after (p.traitUse size id after)
  | imports (hkey : x.isKeyword "use") (hlevel : p.atNamespaceLevel)
    (hfront : ¬ before.head?.any (·.is ")")) :
    Statement p size before x after (p.importStatement size after)
  | constants (hkey : x.isKeyword "const") :
    Statement p size before x after (p.constantDeclaration after)
  | «namespace» {y : Lexeme} {r : List Lexeme} (hkey : x.isKeyword "namespace")
    (hlevel : p.atNamespaceLevel) (hname : (Lexeme.readName after).2 = y :: r)
    (hbody : y.is "\x7b" ∨ y.isTerminator) :
    Statement p size before x after (p.addNamespace size x.index (Lexeme.readName after).1 y)
  | «class» {kind : Class.Kind} {c : Class} (hkind : x.isIdentifier)
    (hclass : p.class? kind (before.head?.any (·.isKeyword "new")) x.index after = some c) :
    Statement p size before x after (p.addClass c)
  | function {isArrow : Bool} {header : Signature} (hkind : x.isIdentifier)
    (hread : Signature.read? isArrow after = some header) :
    Statement p size before x after (p.addFunction x.index header)

variable {p : Pass} {size i : Nat} {before r s : List Lexeme} {x : Lexeme}

private theorem isKeyword_of_fold {word : String} (hkind : x.kind = .keyword)
    (h : Text.fold x.text = Text.fold word) : x.isKeyword word := by
  unfold Token.isKeyword Text.sameFold
  rw [hkind, h]
  simp

private theorem isIdentifier_of_keyword (hkind : x.kind = .keyword) : x.isIdentifier := by
  unfold Token.isIdentifier
  rw [hkind]
  rfl

theorem classDeclaration_statement (hkind : x.isIdentifier) (kind : Class.Kind) :
    p.Statement size before x r
      (p.classDeclaration kind (before.head?.any (·.isKeyword "new")) x.index r) := by
  unfold classDeclaration
  split
  · exact .nothing
  · rename_i c hclass
    exact .«class» hkind hclass

theorem functionDeclaration_statement (hkind : x.isIdentifier) (isArrow : Bool) :
    p.Statement size before x r (p.functionDeclaration isArrow x.index r) := by
  unfold functionDeclaration
  split
  · rename_i header hread
    exact .function hkind hread
  · exact .nothing

theorem namespaceDeclaration_statement (hkey : x.isKeyword "namespace")
    (hlevel : p.atNamespaceLevel) :
    p.Statement size before x r (p.namespaceDeclaration size x.index r) := by
  unfold namespaceDeclaration
  dsimp only
  split
  · exact .nothing
  · rename_i y after hname
    by_cases hbody : !y.is "\x7b" && !y.isTerminator
    · rw [if_pos hbody]
      exact .nothing
    · rw [if_neg hbody]
      refine .«namespace» hkey hlevel hname ?_
      simp only [Bool.and_eq_true, Bool.not_eq_true', not_and, Bool.not_eq_false] at hbody
      cases hbrace : y.is "\x7b" with
      | true => exact Or.inl rfl
      | false => exact Or.inr (hbody hbrace)

theorem keyword_statement (hkind : x.kind = .keyword) :
    p.Statement size before x r (p.keyword size before x r) := by
  have hidentifier := isIdentifier_of_keyword hkind
  have hkey {word : String} (h : Text.fold x.text = word) (hword : Text.fold word = word) :
      x.isKeyword word := isKeyword_of_fold hkind (h.trans hword.symm)
  unfold keyword
  dsimp only
  split
  · rename_i hword
    split
    · rename_i hopens
      exact namespaceDeclaration_statement (hkey hword (by decide))
        (Bool.and_eq_true_iff.mp hopens).2
    · exact .nothing
  · rename_i hword
    split
    · rename_i id hid
      split
      · exact .nothing
      · exact .traits (hkey hword (by decide)) hid
    · split
      · rename_i hopens
        obtain ⟨hlevel, hfront⟩ := Bool.and_eq_true_iff.mp hopens
        exact .imports (hkey hword (by decide)) hlevel (by simpa using hfront)
      · exact .nothing
  · exact classDeclaration_statement hidentifier .classKind
  · exact classDeclaration_statement hidentifier .interfaceKind
  · exact classDeclaration_statement hidentifier .traitKind
  · exact functionDeclaration_statement hidentifier false
  · exact functionDeclaration_statement hidentifier true
  · rename_i hword
    exact .constants (hkey hword (by decide))
  · unfold modifier
    split
    · exact .nothing
    · dsimp only
      split
      · exact .modifiers _
      · exact .nothing

/-- A statement makes one of the changes. -/
theorem statement_cases (p : Pass) (size : Nat) (before : List Lexeme) (x : Lexeme)
    (r : List Lexeme) : p.Statement size before x r (p.statement size before x r) := by
  unfold statement
  split
  · exact .newStatement
  · split
    · rename_i hkind
      split
      · rename_i id hid
        exact .property hkind hid
      · exact .nothing
    · rename_i hkind
      split
      · refine classDeclaration_statement ?_ .classKind
        unfold Token.isIdentifier
        rw [hkind]
        rfl
      · exact .nothing
    · rename_i hkind
      exact keyword_statement hkind
    · exact .nothing

/-! ### What no statement changes -/

theorem scopes_endNamespace (p : Pass) (i : Nat) : (p.endNamespace i).scopes = p.scopes := by
  obtain ⟨namespaces, heq⟩ := exists_endNamespace_eq p i
  rw [heq]

/-- Only brackets open and close scopes. -/
theorem Statement.scopes {p' : Pass} (h : p.Statement size before x r p') :
    p'.scopes = p.scopes := by
  cases h with
  | property =>
    unfold propertyDeclaration
    split <;> rfl
  | imports =>
    unfold importStatement
    split <;> rfl
  | constants =>
    unfold constantDeclaration
    dsimp only
    split
    · rfl
    · split <;> rfl
  | «namespace» =>
    unfold addNamespace
    dsimp only
    split
    · exact scopes_endNamespace p x.index
    · exact scopes_endNamespace p x.index
  | function =>
    unfold addFunction
    dsimp only
    split <;> rfl
  | _ => rfl

theorem scopes_statement (p : Pass) (size : Nat) (before : List Lexeme) (x : Lexeme)
    (r : List Lexeme) : (p.statement size before x r).scopes = p.scopes :=
  (statement_cases p size before x r).scopes

/-! ### Steps -/

/-- Brackets are no statements. -/
theorem statement_of_bracket (hx : x.isOpenBracket ∨ x.isCloseBracket) :
    p.statement size before x r = p := by
  have hkind : x.kind = .punct ∧ x.text ≠ ";" := by
    unfold Token.isOpenBracket Token.isCloseBracket at hx
    simp only [Bool.and_eq_true, Bool.or_eq_true, beq_iff_eq] at hx
    rcases hx with ⟨hkind, (htext | htext) | htext⟩ | ⟨hkind, (htext | htext) | htext⟩ <;>
      exact ⟨hkind, by rw [htext]; decide⟩
  have hgoes : x.isTerminator = false := by
    unfold Token.isTerminator Token.is
    simp [hkind.1, hkind.2]
  unfold statement
  rw [hgoes, if_neg Bool.false_ne_true, hkind.1]

/-- The changes that one step can make. -/
inductive Step (p : Pass) (size : Nat) (before : List Lexeme) (x : Lexeme) (after : List Lexeme) :
    Pass → Prop where
  | opening (hopen : x.isOpenBracket) : Step p size before x after (p.openBracket x)
  | closing (hclose : x.isCloseBracket) : Step p size before x after (p.closeBracket x)
  | readAhead (hopen : x.isOpenBracket = false) (hclose : x.isCloseBracket = false) :
    Step p size before x after p
  | statement {p' : Pass} (hopen : x.isOpenBracket = false) (hclose : x.isCloseBracket = false)
    (hskip : p.skipUntil ≤ x.index) (h : p.Statement size before x after p') :
    Step p size before x after p'

/-- A step is a bracket, a statement or neither. -/
theorem step_cases (p : Pass) (size : Nat) (before : List Lexeme) (x : Lexeme)
    (r : List Lexeme) : p.Step size before x r (p.step size before x r) := by
  rw [step_eq]
  unfold bracket
  by_cases hopen : x.isOpenBracket
  · rw [if_pos hopen, statement_of_bracket (Or.inl hopen), ite_self]
    exact .opening hopen
  · rw [if_neg hopen]
    by_cases hclose : x.isCloseBracket
    · rw [if_pos hclose, statement_of_bracket (Or.inr hclose), ite_self]
      exact .closing hclose
    · rw [if_neg hclose]
      rw [Bool.not_eq_true] at hopen hclose
      split
      · rename_i hskip
        exact .statement hopen hclose hskip (statement_cases p size before x r)
      · exact .readAhead hopen hclose

end PhpLint.Outline.Pass
