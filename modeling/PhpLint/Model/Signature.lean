import PhpLint.Model.Entity
import PhpLint.Model.Lexeme

/-! Reading of parameters and function headers. -/
namespace PhpLint

/-- A parameter as declared; types are as written. -/
structure Parameter.Declared where
  parameter : Parameter
  /-- Modifiers that make a constructor's parameter a property. -/
  promotion : Option Attributes
  deriving Repr

namespace Parameter

/-- A parameter that starts at a token, nothing of it read. -/
def Declared.start (index : Nat) : Declared :=
  ⟨⟨index, "", none, false, false, false⟩, none⟩

/-- The lexemes of one list element: up to the comma or closing bracket at depth zero. -/
def element (depth : Nat) : List Lexeme → List Lexeme
  | [] => []
  | x :: r =>
    if depth == 0 && (x.is "," || x.isCloseBracket) then []
    else if x.isOpenBracket then x :: element (depth + 1) r
    else if x.isCloseBracket then x :: element (depth - 1) r
    else x :: element depth r

/-- Whether a default value follows the name; `depth` brackets are open. -/
def hasDefault (depth : Nat) : List Lexeme → Bool
  | [] => false
  | x :: r =>
    if x.isOpenBracket then hasDefault (depth + 1) r
    else if x.isCloseBracket then hasDefault (depth - 1) r
    else (depth == 0 && x.is "=") || hasDefault depth r

/-- Whether an ampersand in front of these lexemes passes by reference. -/
def passesReference (r : List Lexeme) : Bool :=
  r.head?.any fun x => x.kind == .variable || x.is "..."

namespace Declared

def addModifier (d : Declared) (m : Modifier) : Declared :=
  { d with promotion := some ((d.promotion.getD .empty).insert m) }

def addType (d : Declared) (text : String) : Declared :=
  { d with parameter.typeName := some (d.parameter.typeName.getD "" ++ text) }

/-- Takes in one lexeme in front of the name; `r` follows it. -/
def next (d : Declared) (x : Lexeme) (r : List Lexeme) : Declared :=
  match if x.kind == .keyword then Modifier.ofKeyword? x.text else none with
  | some m => d.addModifier m
  | none =>
    if x.isKeyword "readonly" then { d with promotion := some (d.promotion.getD .empty) }
    else if x.is "..." then { d with parameter.isVariadic := true }
    else if x.is "&" && passesReference r then { d with parameter.isPassedByReference := true }
    else d.addType x.text

/-- Whether `x` and the lexemes after it open a group of attributes. -/
def opensHashGroup (x : Lexeme) (r : List Lexeme) : Bool :=
  x.is "#" && r.head?.any fun y => y.is "[" && y.joined

/-- Open brackets of an attribute group after one more lexeme; `none` after its end. -/
def insideHashGroup (depth : Nat) (x : Lexeme) : Option Nat :=
  if x.isOpenBracket then some (depth + 1)
  else if x.isCloseBracket then if depth ≤ 1 then none else some (depth - 1)
  else some depth

/--
Reads the lexemes of an element. `depth` brackets are open in front of the name; an attribute
group, with its own open brackets, is no part of the parameter.
-/
def read (d : Declared) (depth : Nat) (hashGroup : Option Nat) : List Lexeme → Declared
  | [] => d
  | x :: r =>
    match hashGroup with
    | some n => d.read depth (insideHashGroup n x) r
    | none =>
      if x.kind == .variable then
        { d with parameter.name := x.text, parameter.hasDefaultValue := hasDefault depth r }
      else if opensHashGroup x r then d.read depth (some 0) r
      else
        let depth := if x.isOpenBracket then depth + 1
          else if x.isCloseBracket then depth - 1 else depth
        (d.next x r).read depth none r

/-- The parameter at the front of the lexemes. -/
def ofLexemes (s : List Lexeme) : Declared :=
  (start ((s.head?.map (·.index)).getD 0)).read 0 none (element 0 s)

end Declared

/-- The parameters of the list whose opening bracket was just read. -/
def readList (s : List Lexeme) : List Declared :=
  (listElements Lexeme.toToken "," ")" true 0 s).map Declared.ofLexemes

end Parameter

/-- What stands where a function's body may begin. -/
inductive Body where
  /-- A block, or a body-less declaration's terminator: nothing else is known yet. -/
  | block
  | none
  /-- An arrow expression with its last token. -/
  | expression (last : Nat)
  deriving DecidableEq, Repr

/-- A function header, from after its keyword to its body. -/
structure Signature where
  returnsReference : Bool
  name : Option Lexeme
  parameters : List Parameter.Declared
  usedVariables : List Parameter
  body : Body
  /-- The lexeme at which the body or the terminator stands. -/
  bodyAt : Nat
  deriving Repr

namespace Signature

/-- Skips the lexeme `text` if it is at the front. -/
def optional (text : String) (s : List Lexeme) : Bool × List Lexeme :=
  match s with
  | x :: r => if x.is text then (true, r) else (false, s)
  | [] => (false, s)

/-- Demands the lexeme `text` at the front. -/
def expect (text : String) (s : List Lexeme) : Option (List Lexeme) :=
  match s with
  | x :: r => if x.is text then some r else none
  | [] => none

/-- The name at the front; an arrow function has none. -/
def readName (isArrow : Bool) (s : List Lexeme) : Option Lexeme × List Lexeme :=
  match s with
  | x :: r => if !isArrow && x.isIdentifier then (some x, r) else (none, s)
  | [] => (none, s)

/-- The variables a closure takes along, and what follows them. -/
def readUse (s : List Lexeme) : Option (List Parameter × List Lexeme) :=
  match s with
  | x :: r =>
    if x.isKeyword "use" then do
      let list ← expect "(" r
      let after ← Lexeme.afterClosing list
      return ((Parameter.readList list).map (·.parameter), after)
    else some ([], s)
  | [] => none

/-- Skips a return type. -/
def skipReturnType (s : List Lexeme) : Option (List Lexeme) :=
  match s with
  | x :: r => if x.is ":" then Lexeme.skipType 0 r else some s
  | [] => none

/-- The body that starts with a lexeme. -/
def body? (x : Lexeme) (r : List Lexeme) : Option Body :=
  if x.is "\x7b" then some .block
  else if x.isTerminator then some .none
  else if x.is "=>" then some (.expression (Lexeme.expressionEnd 0 x.index r))
  else none

/-- The header whose keyword was just read, if it is complete. -/
def read? (isArrow : Bool) (s : List Lexeme) : Option Signature := do
  let (returnsReference, s) := optional "&" s
  let (name, s) := readName isArrow s
  let list ← expect "(" s
  let after ← Lexeme.afterClosing list
  let (usedVariables, after) ← readUse after
  let x :: r ← skipReturnType after | none
  let body ← body? x r
  return ⟨returnsReference, name, Parameter.readList list, usedVariables, body, x.index⟩

end Signature

end PhpLint
