import PhpLint.Proofs.Checked.Basic
import PhpLint.Proofs.Text.Octets

/-!
Extents of single tokens by positions among the bytes of a file. Every access to a byte, every
range and every counter is checked; the answers are those of the scanners over characters.
-/
namespace PhpLint.Checked

open Text Token

variable {ε : Type}

/-- The text from byte `first` to byte `last`, which must not cut a character. -/
def cut (bs : List Char) (first last : Nat) : Checked ε String := do
  let part ← slice bs first last
  if isBoundary bs first && isBoundary bs last then
    match String.fromUTF8? ⟨(part.map fun c => UInt8.ofNat c.toNat).toArray⟩ with
    | some text => return text
    | none => trap .boundary
  else trap .boundary

/-- The position behind the bytes of a class that start at `i`. -/
def skip (p : Char → Bool) (bs : List Char) (i : Nat) : Nat :=
  i + run p (bs.drop i)

/-! ### Text and code -/

/-- Length of the open tag whose `<?` stands at a position. -/
def openTagLength (bs : List Char) (start : Nat) : Checked ε (Option Nat) := do
  let after ← sliceFrom bs (start + 2)
  if after.head? == some '=' then return some 3
  else if 3 ≤ after.length then
    let word ← slice after 0 3
    if word.map Char.toLower == ['p', 'h', 'p'] then
      return match after[3]? with
        | none => some 5
        | some c =>
          if c == '\r' && after[4]? == some '\n' then some 7
          else if isTabOrSpace c || c == '\n' || c == '\r' then some 6
          else none
    else return none
  else return none

/-- The next open tag and its length. -/
def findOpenTag (bs : List Char) (search : Nat) : Checked ε (Option (Nat × Nat)) :=
  if _h : search ≤ bs.length then do
    let rest ← sliceFrom bs search
    match find? ['<', '?'].isPrefixOf rest with
    | none => return none
    | some n =>
      match ← openTagLength bs (search + n) with
      | some length => return some (search + n, length)
      | none => findOpenTag bs (search + n + 2)
  else trap .range
termination_by bs.length + 1 - search

/-! ### Comments and words -/

def lineCommentEnd (rest : List Char) (i : Nat) : Checked ε Nat :=
  if _h : i < rest.length then do
    let b ← present rest[i]?
    if b == '\n' then return i + 1
    else if b == '?' && rest[i + 1]? == some '>' then return i
    else lineCommentEnd rest (i + 1)
  else return rest.length
termination_by rest.length - i

def blockComment (bs : List Char) (pos : Nat) : Checked Obstacle (Kind × Nat) := do
  let rest ← sliceFrom bs pos
  let body ← sliceFrom rest 2
  match find? ['*', '/'].isPrefixOf body with
  | none => .error (.error (.unterminated .comment))
  | some n =>
    let isDoc := ['/', '*', '*'].isPrefixOf rest && rest[3]?.any isBlank
    return (if isDoc then .docComment else .comment, pos + 2 + n + 2)

def wordEnd (bs : List Char) (start : Nat) : Checked ε Nat := do
  let rest ← sliceFrom bs start
  let length ← sub bs.length start
  return start + (rest.findIdx? fun c => !isWordChar c).getD length

/-! ### Quoted texts -/

/-- What has been opened and not yet closed. -/
inductive Quote where
  | single
  /-- A text that knows interpolation, with its closing character. -/
  | double (close : Char)
  /-- An interpolation with the number of its open braces. -/
  | braces (depth : Nat)
  deriving DecidableEq, Repr

def Quote.construct : Quote → Construct
  | .braces _ => .interpolation
  | _ => .string

/-- Whether the innermost quote may open another one without a step forward. -/
def reopens : List Quote → Nat
  | .double _ :: _ => 1
  | _ => 0

@[simp] theorem reopens_single (qs : List Quote) : reopens (.single :: qs) = 0 := rfl

@[simp] theorem reopens_double (close : Char) (qs : List Quote) :
    reopens (.double close :: qs) = 1 := rfl

@[simp] theorem reopens_braces (depth : Nat) (qs : List Quote) :
    reopens (.braces depth :: qs) = 0 := rfl

theorem reopens_le (qs : List Quote) : reopens qs ≤ 1 := by
  unfold reopens
  split <;> omega

/-- The position behind all open quotes. A backslash takes the next byte along. -/
def closeQuotes (bs : List Char) : List Quote → Nat → Checked Obstacle Nat
  | [], i => return i
  | q :: qs, i =>
    if _h : i < bs.length then do
      let b ← present bs[i]?
      match q with
      | .single =>
        if b == '\\' then closeQuotes bs (.single :: qs) (i + 2)
        else if b == '\'' then closeQuotes bs qs (i + 1)
        else closeQuotes bs (.single :: qs) (i + 1)
      | .double close =>
        if b == '\\' then closeQuotes bs (.double close :: qs) (i + 2)
        else if b == close then closeQuotes bs qs (i + 1)
        else if b == '\x7b' && bs[i + 1]? == some '$' then
          closeQuotes bs (.braces 0 :: .double close :: qs) i
        else if b == '$' && bs[i + 1]? == some '\x7b' then
          closeQuotes bs (.braces 0 :: .double close :: qs) (i + 1)
        else closeQuotes bs (.double close :: qs) (i + 1)
      | .braces depth =>
        if b == '\x7b' then closeQuotes bs (.braces (depth + 1) :: qs) (i + 1)
        else if b == '\x7d' then
          let depth ← sub depth 1
          if depth == 0 then closeQuotes bs qs (i + 1)
          else closeQuotes bs (.braces depth :: qs) (i + 1)
        else if b == '\'' then closeQuotes bs (.single :: .braces depth :: qs) (i + 1)
        else if b == '"' then closeQuotes bs (.double '"' :: .braces depth :: qs) (i + 1)
        else closeQuotes bs (.braces depth :: qs) (i + 1)
    else .error (.error (.unterminated q.construct))
termination_by qs i => 2 * (bs.length - i) + reopens qs
decreasing_by
  all_goals
    simp only [reopens_single, reopens_double, reopens_braces]
    have := reopens_le qs
    omega

/-! ### Heredocs -/

/-- The end of a heredoc's closing label, on the line that starts at a position or later. -/
def closingLabel (bs label : List Char) (line : Nat) : Checked Obstacle Nat :=
  if _h : line ≤ bs.length then do
    let start := skip isTabOrSpace bs line
    let rest ← sliceFrom bs start
    if label.isPrefixOf rest && !bs[start + label.length]?.any isWordChar then
      return start + label.length
    else
      let rest ← sliceFrom bs line
      match find? ['\n'].isPrefixOf rest with
      | none => .error (.error (.unterminated .heredoc))
      | some n => closingLabel bs label (line + n + 1)
  else trap .range
termination_by bs.length + 1 - line

def heredoc (bs : List Char) (pos : Nat) : Checked Obstacle (Kind × Nat) := do
  let i := skip isTabOrSpace bs (pos + 3)
  let quote := bs[i]?.filter fun c => c == '"' || c == '\''
  let quotes := if quote.isSome then 1 else 0
  if !bs[i + quotes]?.any isWordStart then return (.operator, pos + 2)
  else
    let labelEnd ← wordEnd bs (i + quotes)
    let label ← slice bs (i + quotes) labelEnd
    if quote.isSome && bs[labelEnd]? != quote then .error (.error (.unterminated .heredocLabel))
    else
      let rest ← sliceFrom bs (labelEnd + quotes)
      match find? ['\n'].isPrefixOf rest with
      | none => .error (.error (.unterminated .heredoc))
      | some n => return (.heredoc, ← closingLabel bs label (labelEnd + quotes + n + 1))

/-! ### Casts, numbers and punctuation -/

def castLength (bs : List Char) (pos : Nat) : Checked ε (Option Nat) := do
  let rest ← sliceFrom bs pos
  let start := skip isTabOrSpace rest 1
  let last := skip Char.isAlpha rest start
  let word ← slice rest start last
  if word.isEmpty || !isCastType (String.ofList word) then return none
  else
    let i := skip isTabOrSpace rest last
    return if rest[i]? == some ')' then some (i + 1) else none

def hasRadix (rest : List Char) : Checked ε Bool :=
  if 2 < rest.length then do
    let first ← present rest[0]?
    let second ← present rest[1]?
    return first == '0' && ['x', 'X', 'b', 'B', 'o', 'O'].contains second
  else return false

def fractionEnd (rest : List Char) (i : Nat) : Nat :=
  if rest[i]? == some '.' && rest[i + 1]? != some '.' then skip isDigitOrMark rest (i + 1) else i

def exponentEnd (rest : List Char) (i : Nat) : Nat :=
  if rest[i]? == some 'e' || rest[i]? == some 'E' then
    let j := if rest[i + 1]? == some '+' || rest[i + 1]? == some '-' then i + 2 else i + 1
    if rest[j]?.any Char.isDigit then skip Char.isDigit rest j else i
  else i

def decimalLength (rest : List Char) : Nat :=
  exponentEnd rest (fractionEnd rest (skip isDigitOrMark rest 0))

def numberLength (rest : List Char) : Checked ε Nat := do
  if ← hasRadix rest then return skip (fun c => isHexDigit c || c == '_') rest 2
  else return decimalLength rest

def operator (bs : List Char) (pos : Nat) : Checked Obstacle (Kind × Nat) := do
  let rest ← sliceFrom bs pos
  match operators.find? fun op => op.toList.isPrefixOf rest with
  | some op => return (.operator, pos + op.length)
  | none =>
    let b ← present bs[pos]?
    if punctuation.contains b then return (.punct, pos + 1)
    else
      let text ← cut bs pos bs.length
      .error (.error (.unexpected (text.toList.head?.getD '\ufffd')))

/-! ### Code -/

/-- Inside code: the kind of the token at a position and where it ends. -/
def scanCode (bs : List Char) (member : Bool) (pos : Nat) : Checked Obstacle (Kind × Nat) := do
  let b ← present bs[pos]?
  let rest ← sliceFrom bs pos
  let next := bs[pos + 1]?
  if isBlank b then return (.whitespace, pos + run isBlank rest)
  else if ['?', '>'].isPrefixOf rest then
    let after ← sliceFrom bs (pos + 2)
    let taken := if ['\r', '\n'].isPrefixOf after then 2
      else if bs[pos + 2]? == some '\n' then 1 else 0
    return (.closeTag, pos + 2 + taken)
  else if b == '#' then
    if next == some '[' then return (.punct, pos + 1)
    else return (.comment, pos + (← lineCommentEnd rest 0))
  else if b == '/' && next == some '/' then return (.comment, pos + (← lineCommentEnd rest 0))
  else if b == '/' && next == some '*' then blockComment bs pos
  else if b == '$' && next.any isWordStart then return (.variable, ← wordEnd bs (pos + 1))
  else if b == '\\' then return (.nsSeparator, pos + 1)
  else if b == '\'' then return (.string, ← closeQuotes bs [.single] (pos + 1))
  else if b == '"' || b == '`' then return (.string, ← closeQuotes bs [.double b] (pos + 1))
  else if ['<', '<', '<'].isPrefixOf rest then heredoc bs pos
  else if let some n ← if b == '(' then castLength bs pos else return none then
    return (.cast, pos + n)
  else if b.isDigit || (b == '.' && next.any Char.isDigit) then
    return (.number, pos + (← numberLength rest))
  else if isWordStart b then
    let last ← wordEnd bs pos
    let text ← cut bs pos last
    return (if isReservedWord text && !member then .keyword else .name, last)
  else operator bs pos

end PhpLint.Checked
