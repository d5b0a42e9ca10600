import PhpLint.Model.Bracket
import PhpLint.Model.Import
import PhpLint.Model.Name
import PhpLint.Model.Signature

/-!
The declarations of a file in one pass over its tokens. Every open bracket knows what it is the
body of; a header is read ahead from its keyword and leaves a note at its body's bracket. Names
that depend on imports are resolved after the pass, when every import is known.
-/
namespace PhpLint

/-- What a file declares, and how its brackets pair. -/
structure Outline where
  brackets : Array (Option Nat)
  namespaces : List Namespace
  classes : Array Class
  functions : Array Function
  /-- Constants outside classes. -/
  constants : List Constant
  deriving Repr, Inhabited

def Outline.empty : Outline :=
  ⟨#[], [], #[], #[], []⟩

namespace Outline

/-- What a bracket encloses. -/
inductive Scope where
  | block
  | classBody (id : Nat)
  | functionBody (id : Nat)
  /-- The body of a namespace, by the position of its record. -/
  | namespaceBody (record : Nat)
  deriving DecidableEq, Repr

/-- The state of the pass. -/
structure Pass where
  /-- Scopes of the open brackets, innermost first. -/
  scopes : List Scope
  /-- Brackets ahead that a header has announced; the first entry of a bracket counts. -/
  bodies : List (Nat × Scope)
  namespaces : Array Namespace
  classes : Array Class
  functions : Array Function
  constants : Array Constant
  /-- Modifiers of the statement in progress. -/
  modifiers : Attributes
  /-- Type of the property statement in progress. -/
  propertyType : Option String
  /-- Statements before this token were read ahead. -/
  skipUntil : Nat
  deriving Repr

def Pass.start : Pass :=
  ⟨[], [], #[.globalFrom 0], #[], #[], #[], .empty, none, 0⟩

/-- Name of a class without a name. -/
def anonymousClassName : String :=
  "class@anonymous"

namespace Pass

/-! ### Scopes -/

/-- The class whose body is the innermost bracket. -/
def classBody (p : Pass) : Option Nat :=
  match p.scopes with
  | .classBody id :: _ => some id
  | _ => none

/-- The innermost class around. -/
def enclosingClass (p : Pass) : Option Nat :=
  p.scopes.findSome? fun
    | .classBody id => some id
    | _ => none

def atNamespaceLevel (p : Pass) : Bool :=
  match p.scopes with
  | [] => true
  | .namespaceBody _ :: _ => true
  | _ => false

/-- Name of the namespace in force. -/
def namespaceName (p : Pass) : String :=
  (p.namespaces.back?.map (·.name)).getD ""

def className (p : Pass) (id : Nat) : Option String :=
  p.classes[id]?.map (·.name)

def newStatement (p : Pass) : Pass :=
  { p with modifiers := .empty, propertyType := none }

def announce (p : Pass) (bracket : Nat) (scope : Scope) : Pass :=
  { p with bodies := (bracket, scope) :: p.bodies }

/-- Statements up to the front of `s` were read ahead. -/
def skipTo (p : Pass) (size : Nat) (s : List Lexeme) : Pass :=
  { p with skipUntil := (s.head?.map (·.index)).getD size }

/-! ### Brackets -/

def openBracket (p : Pass) (x : Lexeme) : Pass :=
  let scope := (p.bodies.lookup x.index).getD .block
  let p := if x.is "\x7b" then p.newStatement else p
  { p with
    scopes := scope :: p.scopes
    bodies := p.bodies.filter (·.1 != x.index) }

/-- Sets the end of what the innermost bracket encloses. -/
def endScope (p : Pass) (i : Nat) : Scope → Pass
  | .block => p
  | .classBody id => { p with classes := p.classes.modify id ({ · with bodyEnds := i }) }
  | .functionBody id => { p with functions := p.functions.modify id ({ · with bodyEnds := i }) }
  | .namespaceBody record =>
    { p with
      namespaces := (p.namespaces.modify record ({ · with bodyEnds := some i })).push
        (.globalFrom (i + 1)) }

def closeBracket (p : Pass) (x : Lexeme) : Pass :=
  match p.scopes with
  | [] => p
  | scope :: scopes =>
    let p := { p with scopes }.endScope x.index scope
    if x.is "\x7d" then p.newStatement else p

/-! ### Namespaces -/

/-- Ends the last record before token `i`, or drops it if it holds nothing. -/
def endNamespace (p : Pass) (i : Nat) : Pass :=
  match p.namespaces.back? with
  | none => p
  | some last =>
    if i ≤ last.index then { p with namespaces := p.namespaces.pop }
    else
      let last := { last with bodyEnds := some (i - 1) }
      { p with namespaces := p.namespaces.pop.push last }

/-- The declaration whose keyword stands at token `i` and is followed by `s`. -/
def namespaceDeclaration (p : Pass) (size i : Nat) (s : List Lexeme) : Pass :=
  let (name, after) := Lexeme.readName s
  match after with
  | [] => p
  | x :: _ =>
    let braced := x.is "\x7b"
    if !braced && !x.isTerminator then p
    else
      let p := p.endNamespace i
      let record := p.namespaces.size
      let p := { p with
        namespaces := p.namespaces.push {
          index := i
          name := Text.dropLeading '\\' name
          bodyStarts := if braced then x.index else x.index + 1
          bodyEnds := some (size - 1)
          imports := [] }
        skipUntil := x.index }
      if braced then p.announce x.index (.namespaceBody record) else p

def importStatement (p : Pass) (size : Nat) (s : List Lexeme) : Pass :=
  if s.isEmpty then p
  else
    let (found, after) := Import.read s
    let bindAll (ns : Namespace) : Namespace :=
      { ns with imports := found.foldl (fun m (short, full) => m.bind short full) ns.imports }
    let p := { p with namespaces := p.namespaces.modify (p.namespaces.size - 1) bindAll }
    p.skipTo size after

/-! ### Classes -/

def traitUse (p : Pass) (size id : Nat) (s : List Lexeme) : Pass :=
  let (names, after) := Lexeme.readNames s
  let p := { p with
    classes := p.classes.modify id fun c => { c with traits := c.traits ++ names } }
  p.skipTo size after

/-- Name of a class header and what follows it; `anonymous` is a class after `new`. -/
def className? (p : Pass) (anonymous : Bool) (s : List Lexeme) :
    Option (Option Nat × String × List Lexeme) :=
  match s with
  | [] => none
  | x :: r =>
    if anonymous then
      if x.is "(" then (Lexeme.afterClosing r).map (none, anonymousClassName, ·)
      else some (none, anonymousClassName, x :: r)
    else if x.isIdentifier then
      let named after := (some x.index, Namespace.qualifyLocal p.namespaceName x.text, after)
      match r with
      | colon :: _ :: after => some (named (if colon.is ":" then after else r))
      | _ => some (named r)
    else none

/-- The names after a keyword, if it is at the front. -/
def namesAfter? (keyword : String) (s : List Lexeme) : Option (List String × List Lexeme) :=
  match s with
  | x :: r =>
    if x.isKeyword keyword then
      if r.isEmpty then none else some (Lexeme.readNames r)
    else some ([], s)
  | [] => some ([], [])

/-- The class whose keyword stands at token `i` and is followed by `s`, if its header is complete. -/
def class? (p : Pass) (kind : Class.Kind) (anonymous : Bool) (i : Nat) (s : List Lexeme) :
    Option Class := do
  let (nameIndex, name, s) ← p.className? anonymous s
  let (parents, s) ← namesAfter? "extends" s
  let (interfaces, s) ← namesAfter? "implements" s
  let x ← s.head?
  guard (x.is "\x7b")
  return {
    index := i, kind, nameIndex, name, parents, interfaces
    traits := []
    bodyStarts := x.index, bodyEnds := x.index
    methods := [], properties := [], constants := []
    attributes := p.modifiers }

def classDeclaration (p : Pass) (kind : Class.Kind) (anonymous : Bool) (i : Nat)
    (s : List Lexeme) : Pass :=
  match p.class? kind anonymous i s with
  | none => p
  | some c =>
    let id := p.classes.size
    { p with classes := p.classes.push c, modifiers := .empty }.announce
      c.bodyStarts (.classBody id)

/--
The type written in front of a property; `before` is read backwards. A property after a comma has
none of its own.
-/
def typeBefore (type : String) : List Lexeme → Option String
  | [] => some type
  | x :: before =>
    if x.is "," then none
    else if x.kind == .keyword && ((Modifier.ofKeyword? x.text).isSome || x.isKeyword "readonly")
        || x.is ";" || x.is "\x7b" || x.is "\x7d" || x.is "]" then some type
    else typeBefore (x.text ++ type) before

def propertyDeclaration (p : Pass) (id : Nat) (before : List Lexeme) (x : Lexeme) : Pass :=
  let p := match typeBefore "" before with
    | some type => { p with propertyType := if type.isEmpty then none else some type }
    | none => p
  let add (c : Class) : Class :=
    { c with properties := c.properties ++
      [⟨x.index, x.text, some c.name, p.propertyType, p.modifiers⟩] }
  { p with classes := p.classes.modify id add }

/-- The last identifier before the value of a constant. -/
def constantName (name : Option Lexeme) : List Lexeme → Option Lexeme
  | [] => name
  | x :: r =>
    if x.is "=" || x.is "," || x.isTerminator then name
    else constantName (if x.isIdentifier then some x else name) r

def constantDeclaration (p : Pass) (s : List Lexeme) : Pass :=
  let id? := p.classBody
  if id?.isNone && !p.atNamespaceLevel then p
  else
    let className := id?.bind p.className
    let constants := (listElements Lexeme.toToken "," ";" true 0 s).filterMap fun element =>
      (constantName none element).map fun (x : Lexeme) =>
        let name := if id?.isSome then x.text
          else Namespace.qualifyLocal p.namespaceName x.text
        ({ index := x.index, name, className, attributes := p.modifiers } : Constant)
    let p := { p with modifiers := .empty }
    match id? with
    | some id =>
      let add (c : Class) : Class := { c with constants := c.constants ++ constants }
      { p with classes := p.classes.modify id add }
    | none => { p with constants := p.constants ++ constants.toArray }

/-! ### Functions -/

/-- A promoted parameter as a property. -/
def promotedProperty? (className : String) (d : Parameter.Declared) : Option Property :=
  d.promotion.map fun attributes =>
    ⟨d.parameter.index, d.parameter.name, some className, d.parameter.typeName, attributes⟩

/-- Enters a method into its class; a constructor adds its promoted parameters. -/
def addMethod (c : Class) (id : Nat) (name : String) (parameters : List Parameter.Declared) :
    Class :=
  let promoted := if Text.sameFold name "__construct" then
    parameters.filterMap (promotedProperty? c.name) else []
  { c with properties := c.properties ++ promoted, methods := c.methods ++ [id] }

/-- The function whose keyword stands at token `i` and whose header has been read. -/
def addFunction (p : Pass) (i : Nat) (header : Signature) : Pass :=
  let methodOf := if header.name.isSome then p.classBody else none
  let classId := if header.name.isSome then methodOf else p.enclosingClass
  let name := header.name.map fun x =>
    if methodOf.isSome then x.text else Namespace.qualifyLocal p.namespaceName x.text
  let id := p.functions.size
  let classes := match methodOf, name with
    | some c, some n => p.classes.modify c (addMethod · id n header.parameters)
    | _, _ => p.classes
  let p := { p with
    classes
    functions := p.functions.push {
      index := i
      name
      nameIndex := header.name.map (·.index)
      className := classId.bind p.className
      classId
      bodyStarts := if header.body = .none then none else some header.bodyAt
      bodyEnds := match header.body with
        | .expression last => last
        | _ => header.bodyAt
      returnsReference := header.returnsReference
      parameters := header.parameters.map (·.parameter)
      usedVariables := header.usedVariables
      isDeclaration := header.body = .none
      attributes := p.modifiers }
    modifiers := .empty
    skipUntil := header.bodyAt }
  if header.body = .block then p.announce header.bodyAt (.functionBody id) else p

def functionDeclaration (p : Pass) (isArrow : Bool) (i : Nat) (s : List Lexeme) : Pass :=
  match Signature.read? isArrow s with
  | some header => p.addFunction i header
  | none => p

/-! ### Statements -/

/-- A keyword that opens no declaration may be a modifier. -/
def modifier (p : Pass) (word : String) : Pass :=
  match Modifier.ofKeyword? word with
  | none => p
  | some m =>
    let ofClass := m = .abstract ∨ m = .final
    if p.classBody.isSome || (ofClass && p.atNamespaceLevel) then
      { p with modifiers := p.modifiers.insert m }
    else p

/-- A keyword between the lexemes `before`, read backwards, and `after`. -/
def keyword (p : Pass) (size : Nat) (before : List Lexeme) (x : Lexeme) (after : List Lexeme) :
    Pass :=
  let anonymous := before.head?.any (·.isKeyword "new")
  match Text.fold x.text with
  | "namespace" =>
    let relative := after.head?.any (·.kind == .nsSeparator)
    if !relative && p.atNamespaceLevel then p.namespaceDeclaration size x.index after else p
  | "use" =>
    match p.classBody with
    | some id => if after.isEmpty then p else p.traitUse size id after
    | none =>
      if p.atNamespaceLevel && !before.head?.any (·.is ")") then p.importStatement size after
      else p
  | "class" => p.classDeclaration .classKind anonymous x.index after
  | "interface" => p.classDeclaration .interfaceKind anonymous x.index after
  | "trait" => p.classDeclaration .traitKind anonymous x.index after
  | "function" => p.functionDeclaration false x.index after
  | "fn" => p.functionDeclaration true x.index after
  | "const" => p.constantDeclaration after
  | word => p.modifier word

/-- A lexeme that was not read ahead. -/
def statement (p : Pass) (size : Nat) (before : List Lexeme) (x : Lexeme) (after : List Lexeme) :
    Pass :=
  if x.isTerminator then p.newStatement
  else match x.kind with
  | .variable =>
    match p.classBody with
    | some id => p.propertyDeclaration id before x
    | none => p
  | .name =>
    -- an enumeration is a class; its keyword is reserved only in front of a name
    if x.isWord "enum" && p.atNamespaceLevel && after.head?.any (·.kind == .name) then
      p.classDeclaration .classKind (before.head?.any (·.isKeyword "new")) x.index after
    else p
  | .keyword => p.keyword size before x after
  | _ => p

/-- One step of the pass. -/
def step (p : Pass) (size : Nat) (before : List Lexeme) (x : Lexeme) (after : List Lexeme) :
    Pass :=
  let p := if x.isOpenBracket then p.openBracket x
    else if x.isCloseBracket then p.closeBracket x
    else p
  if p.skipUntil ≤ x.index then p.statement size before x after else p

/-- The pass over the lexemes that follow `before`. -/
def run (p : Pass) (size : Nat) (before : List Lexeme) : List Lexeme → Pass
  | [] => p
  | x :: after => (p.step size before x after).run size (x :: before) after

/-! ### Resolution -/

/-- Ends the last record with the file. -/
def endLast (last : Nat) (ns : Namespace) : Namespace :=
  match ns.bodyEnds with
  | some e => if e < ns.index || last < e then { ns with bodyEnds := some last } else ns
  | none => { ns with bodyEnds := some last }

/-- The records that hold a token of the file. -/
def finishedNamespaces (p : Pass) (size : Nat) : List Namespace :=
  if size == 0 then []
  else
    let last := size - 1
    let records := p.namespaces.modify (p.namespaces.size - 1) (endLast last)
    records.toList.filter fun ns => ns.index ≤ last && ns.bodyEnds.all (ns.index ≤ ·)

end Pass

/-- The record in force at a token: the last that does not start after it, or the first of all. -/
def namespaceAt (records : List Namespace) (i : Nat) : Namespace :=
  match (records.takeWhile (·.index ≤ i)).getLast? with
  | some ns => ns
  | none => records.head?.getD (.globalFrom 0)

def resolveProperty (ns : Namespace) (x : Property) : Property :=
  { x with typeName := x.typeName.map ns.resolveType }

def resolveParameter (ns : Namespace) (x : Parameter) : Parameter :=
  { x with typeName := x.typeName.map ns.resolveType }

/-- A class with the names of its header and its property types resolved. -/
def resolveClass (records : List Namespace) (c : Class) : Class :=
  let ns := namespaceAt records c.index
  { c with
    parents := c.parents.map ns.qualify
    interfaces := c.interfaces.map ns.qualify
    traits := c.traits.map ns.qualify
    properties := c.properties.map (resolveProperty ns) }

/-- A function with its parameter types resolved. -/
def resolveFunction (records : List Namespace) (f : Function) : Function :=
  let ns := namespaceAt records f.index
  { f with parameters := f.parameters.map (resolveParameter ns) }

/-- The outline of a token list; it exists whenever the brackets pair. -/
def ofTokens (tokens : List Token) : Except Bracket.Mismatch Outline := do
  let pairs ← Bracket.pairs tokens
  let size := tokens.length
  let p := Pass.start.run size [] (Lexeme.ofTokens false tokens)
  let namespaces := p.finishedNamespaces size
  return {
    brackets := Bracket.table size pairs
    namespaces
    classes := p.classes.map (resolveClass namespaces)
    functions := p.functions.map (resolveFunction namespaces)
    constants := p.constants.toList }

end Outline

end PhpLint
