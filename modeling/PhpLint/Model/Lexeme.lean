import PhpLint.Token.Basic

/-!
Reading ahead over the tokens that carry syntax. White space and comments are left out; what
remains of them is whether two neighbours touch.
-/
namespace PhpLint

/-- A token that carries syntax. -/
structure Lexeme extends Token where
  /-- Nothing stands between it and the one before. -/
  joined : Bool
  deriving DecidableEq, Repr, Inhabited

namespace Lexeme

/-- The tokens with syntax; `joined` tells whether a token with syntax comes right before. -/
def ofTokens (joined : Bool) : List Token → List Lexeme
  | [] => []
  | t :: ts => if t.isSpace then ofTokens false ts else ⟨t, joined⟩ :: ofTokens true ts

/-- Parts of a qualified name. -/
def isNamePart (x : Lexeme) : Bool :=
  x.isIdentifier || x.kind == .nsSeparator

/-! A reading takes a list of lexemes and answers what it read and the list that follows. -/

/-- The parts of a name that touch the part before. -/
def nameRest : List Lexeme → String × List Lexeme
  | [] => ("", [])
  | x :: r =>
    if x.joined && x.isNamePart then
      let (name, after) := nameRest r
      (x.text ++ name, after)
    else ("", x :: r)

/-- The possibly qualified name at the front; empty if there is none. -/
def readName : List Lexeme → String × List Lexeme
  | [] => ("", [])
  | x :: r =>
    if x.isNamePart then
      let (name, after) := nameRest r
      (x.text ++ name, after)
    else ("", x :: r)

theorem length_nameRest (s : List Lexeme) : (nameRest s).2.length ≤ s.length := by
  induction s with
  | nil => simp [nameRest]
  | cons x r ih => grind [nameRest]

theorem length_readName (s : List Lexeme) : (readName s).2.length ≤ s.length := by
  cases s with
  | nil => simp [readName]
  | cons x r => grind [readName, length_nameRest]

/-- The names with commas between them at the front. -/
def readNames (s : List Lexeme) : List String × List Lexeme :=
  let name := (readName s).1
  if name.isEmpty then ([], s)
  else
    match _h : (readName s).2 with
    | [] => ([name], [])
    | x :: r =>
      if x.is "," then
        let (names, after) := readNames r
        (name :: names, after)
      else ([name], x :: r)
termination_by s.length
decreasing_by
  have := length_readName s
  simp only [_h, List.length_cons] at this
  omega

/-- The list from the bracket on that closes `depth + 1` open ones. -/
def closing (depth : Nat) : List Lexeme → Option (List Lexeme)
  | [] => none
  | x :: r =>
    if x.isOpenBracket then closing (depth + 1) r
    else if x.isCloseBracket then
      match depth with
      | 0 => some (x :: r)
      | depth + 1 => closing depth r
    else closing depth r

/-- The list after the bracket that closes the one just read. -/
def afterClosing (s : List Lexeme) : Option (List Lexeme) :=
  (closing 0 s).map (·.drop 1)

/-- Whether a body or the end of a declaration comes next. -/
def endsSignature (x : Lexeme) : Bool :=
  x.is "\x7b" || x.is "=>" || x.isTerminator

/-- The list from the end of a return type on; `depth` parentheses of it are open. -/
def skipType (depth : Nat) : List Lexeme → Option (List Lexeme)
  | [] => none
  | x :: r =>
    if depth == 0 then
      if x.endsSignature then some (x :: r)
      else skipType (if x.is "(" then 1 else 0) r
    else if x.isOpenBracket then skipType (depth + 1) r
    else if x.isCloseBracket then skipType (depth - 1) r
    else skipType depth r

/-- Index of the last lexeme of an arrow function's body; `last` is the one before. -/
def expressionEnd (depth last : Nat) : List Lexeme → Nat
  | [] => last
  | x :: r =>
    if depth == 0 && (x.is "," || x.isTerminator || x.isCloseBracket) then last
    else if x.isOpenBracket then expressionEnd (depth + 1) x.index r
    else if x.isCloseBracket then expressionEnd (depth - 1) x.index r
    else expressionEnd depth x.index r

end Lexeme

/--
The beginnings of the elements of a bracketed list, each with all that follows it. Elements are
separated at depth zero; a terminator or the list's own closing bracket ends them. `fresh` tells
that no element has begun since the last separator.
-/
def listElements {α : Type} (token : α → Token) (separator terminator : String)
    (fresh : Bool) (depth : Nat) : List α → List (List α)
  | [] => []
  | x :: r =>
    let t := token x
    if depth == 0 && (t.is terminator || (t.isCloseBracket && !t.is separator)) then []
    else if depth == 0 && t.is separator then
      listElements token separator terminator true 0 r
    else
      let depth := if t.isOpenBracket then depth + 1
        else if t.isCloseBracket then depth - 1 else depth
      if fresh && !t.isSpace then (x :: r) :: listElements token separator terminator false depth r
      else listElements token separator terminator fresh depth r

/-- First tokens of the elements of a bracketed list. -/
def Token.listElements (separator terminator : String) (tokens : List Token) : List Token :=
  (PhpLint.listElements id separator terminator true 0 tokens).filterMap List.head?

end PhpLint
