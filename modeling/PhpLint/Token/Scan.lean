import PhpLint.Text.Ascii
import PhpLint.Token.Basic
import PhpLint.Token.Words

/-!
Extents of single tokens. A scanner looks at the first character and at what follows it, and
answers the kind of the token and how many further characters belong to it.
-/
namespace PhpLint.Token

open Text (isBlank isHexDigit isTabOrSpace)

/-- What can lack its end. -/
inductive Construct where
  | comment
  | string
  | interpolation
  | heredocLabel
  | heredoc
  deriving DecidableEq, Repr

/-- Why no token can be read. -/
inductive Obstacle where
  | unterminated (what : Construct)
  | unexpected (char : Char)
  deriving DecidableEq, Repr

/-- The kind of a token and its number of characters after the first. -/
abbrev Extent := Kind × Nat

/-- Letters, the underscore and everything outside ASCII. -/
def isWordStart (c : Char) : Bool :=
  c.isAlpha || c == '_' || 0x80 ≤ c.toNat

def isWordChar (c : Char) : Bool :=
  isWordStart c || c.isDigit

/-- Length of the longest beginning whose characters all satisfy `p`. -/
def run (p : Char → Bool) (s : List Char) : Nat :=
  (s.takeWhile p).length

/-- First position at which `p` holds of the remaining text. -/
def find? (p : List Char → Bool) (s : List Char) : Option Nat :=
  go 0 s
where
  go (n : Nat) : List Char → Option Nat
    | [] => if p [] then some n else none
    | c :: r => if p (c :: r) then some n else go (n + 1) r

/-! ### Text and code -/

/-- Kind and length of the open tag at the front. -/
def openTag? : List Char → Option (Kind × Nat)
  | '<' :: '?' :: '=' :: _ => some (.openTagWithEcho, 3)
  | '<' :: '?' :: p :: h :: q :: r =>
    if p.toLower == 'p' && h.toLower == 'h' && q.toLower == 'p' then
      match r with
      | [] => some (.openTag, 5)
      | '\r' :: '\n' :: _ => some (.openTag, 7)
      | c :: _ => if isTabOrSpace c || c == '\n' || c == '\r' then some (.openTag, 6) else none
    else none
  | _ => none

/-- Outside code: an open tag, or all text before the next one. -/
def scanText (c : Char) (r : List Char) : Extent :=
  match openTag? (c :: r) with
  | some (kind, n) => (kind, n - 1)
  | none => (.inlineHtml, (find? (fun s => (openTag? s).isSome) r).getD r.length)

/-- Length of the line break that a close tag takes along. -/
def lineBreak : List Char → Nat
  | '\r' :: '\n' :: _ => 2
  | '\n' :: _ => 1
  | _ => 0

/-! ### Comments -/

/-- A line comment ends after its line feed or before a close tag. -/
def lineComment (n : Nat) : List Char → Nat
  | [] => n
  | '\n' :: _ => n + 1
  | '?' :: '>' :: _ => n
  | _ :: r => lineComment (n + 1) r

/-- A block comment; `r` is the text after its `/*`. -/
def blockComment (r : List Char) : Except Obstacle Extent :=
  match find? (fun s => ['*', '/'].isPrefixOf s) r with
  | none => .error (.unterminated .comment)
  | some n =>
    let isDoc := match r with
      | '*' :: c :: _ => isBlank c
      | _ => false
    .ok (if isDoc then .docComment else .comment, n + 3)

/-! ### Quoted texts -/

/-- What a character inside a quoted text belongs to. -/
inductive Frame where
  /-- The character after a backslash. -/
  | escape
  | single
  /-- A text that knows interpolation, with its closing character. -/
  | quoted (close : Char)
  /-- Code inside an interpolation, with the number of its open braces. -/
  | braces (depth : Nat)
  deriving DecidableEq, Repr

/-- The frames that take the place of the innermost one after the character `c`. -/
def Frame.step (c : Char) (next : Option Char) : Frame → List Frame
  | .escape => []
  | .single =>
    if c == '\\' then [.escape, .single] else if c == '\'' then [] else [.single]
  | .quoted close =>
    if c == '\\' then [.escape, .quoted close]
    else if c == close then []
    else if c == '{' && next == some '$' then [.braces 1, .quoted close]
    else if c == '$' && next == some '{' then [.braces 0, .quoted close]
    else [.quoted close]
  | .braces depth =>
    if c == '{' then [.braces (depth + 1)]
    else if c == '}' then if depth ≤ 1 then [] else [.braces (depth - 1)]
    else if c == '\'' then [.single, .braces depth]
    else if c == '"' then [.quoted '"', .braces depth]
    else [.braces depth]

/-- What is missing when the text ends inside a frame. -/
def Frame.construct : Frame → Construct
  | .braces _ => .interpolation
  | _ => .string

/-- Number of characters until all frames are closed. -/
def closeFrames (n : Nat) : List Frame → List Char → Except Obstacle Nat
  | [], _ => .ok n
  | f :: _, [] => .error (.unterminated f.construct)
  | f :: fs, c :: r => closeFrames (n + 1) (f.step c r.head? ++ fs) r

/-! ### Heredocs -/

/-- Length of the closing label, which may be indented, at the front of a line. -/
def closingLabel? (label line : List Char) : Option Nat :=
  let indent := run isTabOrSpace line
  let s := line.drop indent
  if label.isPrefixOf s && !(s.drop label.length).head?.any isWordChar then
    some (indent + label.length)
  else none

/-- Number of characters up to and including the closing label. -/
def heredocBody (label : List Char) (n : Nat) : List Char → Option Nat
  | [] => none
  | c :: r =>
    if c == '\n' then
      match closingLabel? label r with
      | some k => some (n + 1 + k)
      | none => heredocBody label (n + 1) r
    else heredocBody label (n + 1) r

/-- A heredoc; `r` is the text after `<<<`. Without a label it is only a shift operator. -/
def heredoc (r : List Char) : Except Obstacle Extent :=
  let blanks := run isTabOrSpace r
  let s := r.drop blanks
  let quote := s.head?.filter fun c => c == '"' || c == '\''
  let quotes := if quote.isSome then 1 else 0
  let s := s.drop quotes
  if !s.head?.any isWordStart then .ok (.operator, 1)
  else
    let label := s.takeWhile isWordChar
    let s := s.drop label.length
    if quote.isSome && s.head? != quote then .error (.unterminated .heredocLabel)
    else
      let header := 2 + blanks + quotes + label.length + quotes
      match heredocBody label header (s.drop quotes) with
      | some n => .ok (.heredoc, n)
      | none => .error (.unterminated .heredoc)

/-! ### Casts, numbers and punctuation -/

/-- Length of the rest of a cast; `r` is the text after its parenthesis. -/
def cast? (r : List Char) : Option Nat :=
  let before := run isTabOrSpace r
  let s := r.drop before
  let word := s.takeWhile Char.isAlpha
  let s := s.drop word.length
  let after := run isTabOrSpace s
  if isCastType (String.ofList word) && (s.drop after).head? == some ')' then
    some (before + word.length + after + 1)
  else none

def isDigitOrMark (c : Char) : Bool :=
  c.isDigit || c == '_'

/-- Length of the exponent at the front, if there is one. -/
def exponent : List Char → Nat
  | e :: r =>
    if e == 'e' || e == 'E' then
      let sign := if r.head? == some '+' || r.head? == some '-' then 1 else 0
      let digits := run Char.isDigit (r.drop sign)
      if digits == 0 then 0 else 1 + sign + digits
    else 0
  | [] => 0

/-- Length of the fraction at the front; a point before another point is no fraction. -/
def fraction : List Char → Nat
  | '.' :: r => if r.head? == some '.' then 0 else 1 + run isDigitOrMark r
  | _ => 0

/-- Length of a number. A radix letter needs one more character after it. -/
def number : List Char → Nat
  | s@('0' :: radix :: r) =>
    if ['x', 'X', 'b', 'B', 'o', 'O'].contains radix && !r.isEmpty then
      2 + run (fun c => isHexDigit c || c == '_') r
    else decimal s
  | s => decimal s
where
  decimal (s : List Char) : Nat :=
    let whole := run isDigitOrMark s
    let n := whole + fraction (s.drop whole)
    n + exponent (s.drop n)

/-- Operators of several characters, a longer one before its beginnings. -/
def operators : List String :=
  ["<=>", "**=", "...", "<<=", ">>=", "===", "!==", "??=", "?->", "++", "--", "->", "=>", "::",
    "==", "!=", "<>", "<=", ">=", "&&", "||", "??", "+=", "-=", "*=", "/=", ".=", "%=", "&=",
    "|=", "^=", "<<", ">>", "**"]

def punctuation : List Char :=
  ";,(){}[]=+-*/%.<>!?:&|^~@$#".toList

/-- The longest operator at the front, or a single character of punctuation. -/
def scanOperator (c : Char) (r : List Char) : Except Obstacle Extent :=
  match operators.find? fun op => op.toList.isPrefixOf (c :: r) with
  | some op => .ok (.operator, op.length - 1)
  | none => if punctuation.contains c then .ok (.punct, 0) else .error (.unexpected c)

/-! ### Code -/

/-- Inside code. After a member access a reserved word is an ordinary name. -/
def scanCode (member : Bool) (c : Char) (r : List Char) : Except Obstacle Extent :=
  let next := r.head?
  if isBlank c then .ok (.whitespace, run isBlank r)
  else if c == '?' && next == some '>' then .ok (.closeTag, 1 + lineBreak (r.drop 1))
  else if c == '#' then
    .ok (if next == some '[' then (.punct, 0) else (.comment, lineComment 0 r))
  else if c == '/' && next == some '/' then .ok (.comment, lineComment 0 r)
  else if c == '/' && next == some '*' then blockComment (r.drop 1)
  else if c == '$' && next.any isWordStart then .ok (.variable, run isWordChar r)
  else if c == '\\' then .ok (.nsSeparator, 0)
  else if c == '\'' then (closeFrames 0 [.single] r).map (.string, ·)
  else if c == '"' || c == '`' then (closeFrames 0 [.quoted c] r).map (.string, ·)
  else if ['<', '<', '<'].isPrefixOf (c :: r) then heredoc (r.drop 2)
  else if let some n := if c == '(' then cast? r else none then .ok (.cast, n)
  else if c.isDigit || (c == '.' && next.any Char.isDigit) then
    .ok (.number, number (c :: r) - 1)
  else if isWordStart c then
    let n := run isWordChar r
    let isKeyword := isReservedWord (String.ofList (c :: r.take n)) && !member
    .ok (if isKeyword then .keyword else .name, n)
  else scanOperator c r

end PhpLint.Token
