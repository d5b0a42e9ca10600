import PhpLint.Plugin.Basic

/-!
Variables that a function assigns and never reads. Closures are scopes of their own, but what they
take along is read by the function around them. Functions that reach variables by name are left
alone.
-/
namespace PhpLint.Rule.UnusedVariable

def superglobals : List String :=
  ["$this", "$GLOBALS", "$_SERVER", "$_GET", "$_POST", "$_FILES", "$_COOKIE", "$_SESSION",
    "$_REQUEST", "$_ENV", "$http_response_header", "$argc", "$argv"]

/-- Calls that reach local variables by name. -/
def dynamicFunctions : List String :=
  ["compact", "extract", "get_defined_vars", "eval", "parse_str"]

/-! ### Interpolation -/

/-- Characters of a variable name inside a text. -/
def isNameChar (c : Char) : Bool :=
  c.isAlphanum || c == '_' || 0x80 ≤ c.toNat

/-- Where a reader of a text stands. -/
inductive Reading where
  | outside
  /-- After a backslash. -/
  | escaped
  /-- In a name, whose characters so far are reversed. -/
  | name (chars : List Char)
  deriving DecidableEq, Repr

/-- After a character that is no part of a name. -/
def Reading.after (c : Char) : Reading :=
  if c == '$' then .name [] else if c == '\\' then .escaped else .outside

/-- The variable of a name that has ended; a digit starts none. -/
def variableOf (chars : List Char) : List String :=
  if chars.getLast?.any (!·.isDigit) then [String.ofList ('$' :: chars.reverse)] else []

def variablesFrom : Reading → List Char → List String
  | .name chars, [] => variableOf chars
  | _, [] => []
  | .escaped, _ :: r => variablesFrom .outside r
  | .outside, c :: r => variablesFrom (.after c) r
  | .name chars, c :: r =>
    if isNameChar c then variablesFrom (.name (c :: chars)) r
    else variableOf chars ++ variablesFrom (.after c) r

/-- Variables inside a string or heredoc; single quotes keep them from being read. -/
def interpolated (text : String) : List String :=
  let s := text.toList
  if ['\''].isPrefixOf s || ['<', '<', '<', '\''].isPrefixOf s then []
  else variablesFrom .outside s

/-! ### Usage -/

/-- How a function uses its variables. -/
structure Usage where
  /-- Variables with the tokens that assign them first. -/
  assigned : List (String × Nat)
  read : List String
  /-- Variables bound elsewhere, for which assignments matter. -/
  exempt : List String
  /-- Variables may be reached by name. -/
  dynamic : Bool
  deriving Repr

namespace Usage

def addRead (u : Usage) (names : List String) : Usage :=
  { u with read := names ++ u.read }

def assign (u : Usage) (name : String) (i : Nat) : Usage :=
  if (u.assigned.lookup name).isSome then u
  else { u with assigned := (name, i) :: u.assigned }

/-- The first assignments of the variables that nothing reads. -/
def unread (u : Usage) : List Nat :=
  let kept (entry : String × Nat) : Bool :=
    !u.read.contains entry.1 && !u.exempt.contains entry.1 && !superglobals.contains entry.1
  if u.dynamic then [] else (u.assigned.filter kept).map (·.2)

end Usage

/-- A variable with `=` after it, unless it becomes a reference. -/
def isPlainAssignment (file : SourceFile) (i : Nat) : Bool :=
  (file.nextSignificant i).any fun t =>
    t.is "=" && !(file.nextSignificant t.index).any (·.is "&")

/-- The variables of a statement that binds names from elsewhere. -/
def boundNames (file : SourceFile) (i : Nat) : List String :=
  let statement := (file.tokens.toList.drop (i + 1)).takeWhile (!·.isTerminator)
  (statement.filter (·.kind == .variable)).map (·.text)

def callsDynamic (file : SourceFile) (t : Token) : Bool :=
  t.kind == .name && dynamicFunctions.any t.isWord
    && (file.nextSignificant t.index).any (·.is "(")

/-- A token of the function's own scope. -/
def ownToken (file : SourceFile) (u : Usage) (t : Token) : Usage :=
  match t.kind with
  | .punct => if t.is "$" then { u with dynamic := true } else u
  | .name => if callsDynamic file t then { u with dynamic := true } else u
  | .keyword =>
    if t.isKeyword "global" || t.isKeyword "static" then
      { u with exempt := boundNames file t.index ++ u.exempt }
    else u
  | .variable =>
    if isPlainAssignment file t.index then u.assign t.text t.index else u.addRead [t.text]
  | .string | .heredoc => u.addRead (interpolated t.text)
  | _ => u

/-- Whether one function stands right inside another. -/
def isDirectlyInside (file : SourceFile) (outer inner : Function) : Bool :=
  0 < inner.index && (file.functionAt (inner.index - 1)).any (·.index == outer.index)

/-- A token of a function inside `f`. An arrow function reads the scope around it. -/
def innerToken (file : SourceFile) (f inner : Function) (u : Usage) (t : Token) : Usage :=
  if !isDirectlyInside file f inner then u
  else
    let u := if t.index == inner.index then u.addRead (inner.usedVariables.map (·.name)) else u
    let isArrow := file.tokens[inner.index]?.any (·.isKeyword "fn")
    if isArrow && t.kind == .variable then u.addRead [t.text] else u

def addToken (file : SourceFile) (f : Function) (u : Usage) (t : Token) : Usage :=
  match (file.functionAt t.index).filter (·.index != f.index) with
  | some inner => innerToken file f inner u t
  | none => ownToken file u t

/-- Tokens that assign variables of `f` which nothing reads. -/
def unusedIn (file : SourceFile) (f : Function) : List Nat :=
  match f.bodyStarts with
  | none => []
  | some start =>
    let bound := (f.parameters ++ f.usedVariables).map (·.name)
    let body := (file.tokens.extract start (f.bodyEnds + 1)).toList
    (body.foldl (addToken file f) ⟨[], [], bound, false⟩).unread

def plugin : Plugin :=
  .ofLint "php-lint-unused-variables" "Unused variables" {
    codes := [⟨"uv01", .warning, "Variable is assigned but never used"⟩]
    findings := fun file =>
      let unused := file.functions.toList.flatMap (unusedIn file)
      .ok ((unused.mergeSort fun a b => a ≤ b).map fun i => ⟨i, "uv01"⟩) }

end PhpLint.Rule.UnusedVariable
