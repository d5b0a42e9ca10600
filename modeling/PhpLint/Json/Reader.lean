import PhpLint.Json.Raw

/-!
Reading of JSON: bytes are cut into marks, and the marks are put together to a value. A byte stands
as the character of its number, for all marks are ASCII; the text of a string is left alone.
-/
namespace PhpLint.Json

/-- A mark of a JSON text. -/
inductive Mark where
  | openBracket
  | closeBracket
  | openBrace
  | closeBrace
  | comma
  | colon
  /-- A value that holds no others. -/
  | scalar (j : Raw)
  deriving Repr

/-! ### Strings -/

/-- Number of characters in front of the closing quote. -/
def stringLength (n : Nat) : List Char → Option Nat
  | [] => none
  | '"' :: _ => some n
  | '\\' :: _ :: r => stringLength (n + 2) r
  | _ :: r => stringLength (n + 1) r

/-! ### Numbers -/

/-- The digits at the front, and what follows them. -/
def digits (s : List Char) : List Char × List Char :=
  (s.takeWhile Char.isDigit, s.dropWhile Char.isDigit)

/-- The number that decimal digits spell. -/
def digitsValue (ds : List Char) : Nat :=
  ds.foldl (fun n d => 10 * n + (d.toNat - 48)) 0

/-- A minus sign at the front, and what follows it. -/
def sign (s : List Char) : Bool × List Char :=
  match s with
  | '-' :: r => (true, r)
  | _ => (false, s)

/-- What follows a fraction, if there is one it has digits. -/
def afterFraction? (s : List Char) : Option (List Char) :=
  match s with
  | '.' :: r =>
    let (ds, r) := digits r
    if ds.isEmpty then none else some r
  | _ => some s

/-- Whether nothing is left but perhaps an exponent. -/
def isExponent (s : List Char) : Bool :=
  match s with
  | [] => true
  | e :: r =>
    let r := match r with
      | c :: r' => if c == '+' || c == '-' then r' else r
      | [] => r
    (e == 'e' || e == 'E') && !r.isEmpty && r.all Char.isDigit

/-- The number that a text spells. It has no needless zero in front. -/
def number? (s : List Char) : Option Raw := do
  let (negative, r) := sign s
  let (whole, r) := digits r
  guard (!whole.isEmpty && (whole.length == 1 || whole.head? != some '0'))
  let n := digitsValue whole
  if r.isEmpty && !(negative && n == 0) then return .int (if negative then -n else n)
  else
    let r ← afterFraction? r
    guard (isExponent r)
    return .decimal (String.ofList s)

def isNumberChar (c : Char) : Bool :=
  c.isDigit || ['+', '-', '.', 'e', 'E'].contains c

/-! ### Marks -/

/-- A word at the front, after its first character. -/
def word? (j : Raw) (rest : List Char) (r : List Char) : Option (Mark × Nat) :=
  if rest.isPrefixOf r then some (.scalar j, rest.length) else none

/-- The mark whose first character is `c`, and its number of characters after the first. -/
def mark? (c : Char) (r : List Char) : Option (Mark × Nat) :=
  match c with
  | '[' => some (.openBracket, 0)
  | ']' => some (.closeBracket, 0)
  | '{' => some (.openBrace, 0)
  | '}' => some (.closeBrace, 0)
  | ',' => some (.comma, 0)
  | ':' => some (.colon, 0)
  | 'n' => word? .null ['u', 'l', 'l'] r
  | 't' => word? (.bool true) ['r', 'u', 'e'] r
  | 'f' => word? (.bool false) ['a', 'l', 's', 'e'] r
  | '"' => do
    let n ← stringLength 0 r
    let inside := r.take n
    guard (isWellFormed inside)
    return (.scalar (.str inside), n + 1)
  | _ => do
    let rest := r.takeWhile isNumberChar
    let j ← number? (c :: rest)
    return (.scalar j, rest.length)

/-- The marks of a text. -/
def marks? : List Char → Option (List Mark)
  | [] => some []
  | c :: r =>
    if c == ' ' || c == '\n' || c == '\t' || c == '\r' then marks? r
    else match mark? c r with
      | some (m, n) => (marks? (r.drop n)).map (m :: ·)
      | none => none
termination_by s => s.length
decreasing_by all_goals simp only [List.length_drop, List.length_cons]; omega

/-! ### Values -/

/-- A container read in part; what it holds is in reverse order. -/
inductive Open where
  | arr (done : List Raw)
  | obj (done : List (List Char × Raw))
  /-- An object that waits for the value of a field. -/
  | field (done : List (List Char × Raw)) (name : List Char)
  deriving Repr

/-- What may come next. -/
inductive Wanted where
  | value
  /-- A value, or the end of an array that has just begun. -/
  | valueOrEnd
  /-- A name, or the end of an object that has just begun. -/
  | nameOrEnd
  | name
  | colon
  /-- A comma, or the end of the container. -/
  | separator
  deriving DecidableEq, Repr

/-- The state of reading: open containers, innermost first, what comes next, and the result. -/
structure Progress where
  containers : List Open
  wanted : Wanted
  result : Option Raw
  deriving Repr

/-- Takes in a finished value. -/
def Progress.put (p : Progress) (j : Raw) : Option Progress :=
  match p.containers with
  | [] => some ⟨[], .separator, some j⟩
  | .arr done :: rest => some ⟨.arr (j :: done) :: rest, .separator, none⟩
  | .field done name :: rest => some ⟨.obj ((name, j) :: done) :: rest, .separator, none⟩
  | .obj _ :: _ => none

/-- Takes in one mark. -/
def Progress.step (p : Progress) (m : Mark) : Option Progress :=
  match p.wanted, m, p.containers with
  | .value, .scalar j, _ | .valueOrEnd, .scalar j, _ => p.put j
  | .value, .openBracket, cs | .valueOrEnd, .openBracket, cs =>
    some ⟨.arr [] :: cs, .valueOrEnd, none⟩
  | .value, .openBrace, cs | .valueOrEnd, .openBrace, cs => some ⟨.obj [] :: cs, .nameOrEnd, none⟩
  | .valueOrEnd, .closeBracket, .arr done :: cs | .separator, .closeBracket, .arr done :: cs =>
    { p with containers := cs }.put (.arr done.reverse)
  | .nameOrEnd, .closeBrace, .obj done :: cs | .separator, .closeBrace, .obj done :: cs =>
    { p with containers := cs }.put (.obj done.reverse)
  | .name, .scalar (.str name), .obj done :: cs
  | .nameOrEnd, .scalar (.str name), .obj done :: cs => some ⟨.field done name :: cs, .colon, none⟩
  | .colon, .colon, cs => some ⟨cs, .value, none⟩
  | .separator, .comma, .arr done :: cs => some ⟨.arr done :: cs, .value, none⟩
  | .separator, .comma, .obj done :: cs => some ⟨.obj done :: cs, .name, none⟩
  | _, _, _ => none

/-- The value that bytes spell, if they spell exactly one. -/
def Raw.read? (data : ByteArray) : Option Raw := do
  let marks ← marks? (data.toList.map fun b => Char.ofNat b.toNat)
  let p ← marks.foldlM Progress.step ⟨[], .value, none⟩
  guard p.containers.isEmpty
  p.result

/-- The value that a text spells, if all of its strings can be read. -/
def parse? (s : String) : Option Json :=
  (Raw.read? s.toUTF8).bind Raw.value?

end PhpLint.Json
