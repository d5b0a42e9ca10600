import PhpLint.Toml.Entry
import PhpLint.Toml.Scalar
import PhpLint.Toml.Writer

/-! Reading of TOML files, piece by piece from the front. -/
namespace PhpLint.Toml

/-- A container of values that is open. -/
inductive Open where
  /-- An array; the last element comes first. -/
  | array (done : List Value)
  /-- A table on one line, and the key in progress around it. -/
  | table (done : Entries) (outer : List String)

/-- What a key is for. -/
inductive KeyUse where
  /-- To begin a table. -/
  | header
  /-- To begin a table of a list. -/
  | element
  | value
  deriving DecidableEq, Repr

/-- What may come next. -/
inductive Wanted where
  /-- A header or a key with its value. -/
  | statement
  | lineEnd
  | keyPart (use : KeyUse)
  /-- A point, or the end of a key. -/
  | keyNext (use : KeyUse)
  | value
  /-- An element of an array, or its end. -/
  | element
  | arrayNext
  /-- A key of a table on one line, or its end. -/
  | keyOrEnd
  | tableNext
  deriving DecidableEq, Repr

/-- A file read in part. -/
structure Progress where
  entries : Entries
  /-- The header in force. -/
  header : List String
  /-- The parts of the key in progress, the last one first. -/
  key : List String
  /-- Innermost first. -/
  containers : List Open
  wanted : Wanted

namespace Progress

def start : Progress :=
  ⟨[], [], [], [], .statement⟩

/-- Neither keys nor containers can be nested as deep as this. -/
def nestingLimit : Nat :=
  80

/-- Whether lines may end here. -/
def breaksLines (p : Progress) : Bool :=
  match p.containers with
  | .array _ :: _ => true
  | .table _ _ :: _ => false
  | [] => p.wanted == .statement || p.wanted == .lineEnd

/-- Adds a value under the key in progress. -/
def addTo (p : Progress) (v : Value) (es : Entries) : Option Entries :=
  match p.key with
  | [] => none
  | last :: path => es.addValue last v path.reverse

/-- Takes in a finished value. -/
def put (p : Progress) (v : Value) : Option Progress :=
  match p.containers with
  | [] => do
    let entries ← p.entries.update (p.addTo v) p.header
    return { p with entries, key := [], wanted := .lineEnd }
  | .array done :: rest =>
    some { p with containers := .array (v :: done) :: rest, wanted := .arrayNext }
  | .table done outer :: rest => do
    let done ← p.addTo v done
    return { p with containers := .table done outer :: rest, key := [], wanted := .tableNext }

/-- Closes the innermost container. -/
def close (p : Progress) : Option Progress :=
  match p.containers with
  | [] => none
  | .array done :: rest => { p with containers := rest }.put (.array done.reverse)
  | .table done outer :: rest =>
    { p with containers := rest, key := outer }.put (.table done.toTable)

/-- Opens a container. -/
def opened (p : Progress) (container : Open) (key : List String) (wanted : Wanted) :
    Option Progress :=
  if nestingLimit ≤ p.containers.length + 1 then none
  else some { p with containers := container :: p.containers, key, wanted }

/-- Takes in a part of a key. -/
def addKeyPart (p : Progress) (use : KeyUse) (part : String) : Option Progress :=
  if nestingLimit ≤ p.key.length + 1 then none
  else some { p with key := part :: p.key, wanted := .keyNext use }

/-- Begins the table that the key in progress names. -/
def beginTable (p : Progress) (entries : Option Entries) : Option Progress :=
  entries.map fun entries =>
    { p with entries, header := p.key.reverse, key := [], wanted := .lineEnd }

/-- A part of a key at the front, and its number of characters. -/
def keyPart? (s : List Char) : Option (String × Nat) :=
  match s with
  | '"' :: _ | '\'' :: _ => text?.short s
  | s =>
    let bare := s.takeWhile isBareChar
    if bare.isEmpty then none else some (String.ofList bare, bare.length)

def readKeyPart (p : Progress) (use : KeyUse) (s : List Char) : Option (Progress × Nat) := do
  let (part, n) ← keyPart? s
  return (← p.addKeyPart use part, n)

def readValue (p : Progress) (s : List Char) : Option (Progress × Nat) :=
  match s with
  | '[' :: _ => (p.opened (.array []) p.key .element).map (·, 1)
  | '{' :: _ => (p.opened (.table [] p.key) [] .keyOrEnd).map (·, 1)
  | s => do
    let (v, n) ← scalar? s
    return (← p.put v, n)

/-- What follows a part of a key. -/
def readKeyNext (p : Progress) (use : KeyUse) (s : List Char) : Option (Progress × Nat) :=
  match use, s with
  | use, '.' :: _ => some ({ p with wanted := .keyPart use }, 1)
  | .value, '=' :: _ => some ({ p with wanted := .value }, 1)
  | .header, ']' :: _ => (p.beginTable (p.entries.openTable p.key.reverse)).map (·, 1)
  | .element, ']' :: ']' :: _ => (p.beginTable (p.entries.openElement p.key.reverse)).map (·, 2)
  | _, _ => none

/-- Takes in a piece that is no white space and no comment, and its number of characters. -/
def read (p : Progress) (s : List Char) : Option (Progress × Nat) :=
  match p.wanted, s with
  | .statement, '[' :: '[' :: _ => some ({ p with wanted := .keyPart .element }, 2)
  | .statement, '[' :: _ => some ({ p with wanted := .keyPart .header }, 1)
  | .statement, s => p.readKeyPart .value s
  | .lineEnd, _ => none
  | .keyPart use, s => p.readKeyPart use s
  | .keyNext use, s => p.readKeyNext use s
  | .value, s => p.readValue s
  | .element, ']' :: _ | .arrayNext, ']' :: _ => p.close.map (·, 1)
  | .element, s => p.readValue s
  | .arrayNext, ',' :: _ => some ({ p with wanted := .element }, 1)
  | .arrayNext, _ => none
  | .keyOrEnd, '}' :: _ | .tableNext, '}' :: _ => p.close.map (·, 1)
  | .keyOrEnd, s => p.readKeyPart .value s
  | .tableNext, ',' :: _ => some ({ p with wanted := .keyPart .value }, 1)
  | .tableNext, _ => none

/-- The state behind a line break. -/
def nextLine (p : Progress) : Progress :=
  if p.containers.isEmpty then { p with wanted := .statement } else p

/-- Takes in what comes next, and its number of characters. -/
def next (p : Progress) (s : List Char) : Option (Progress × Nat) :=
  match s with
  | [] => none
  | c :: r =>
    if Text.isTabOrSpace c then some (p, 1)
    else if breakLength s != 0 then
      if p.breaksLines then some (p.nextLine, breakLength s) else none
    else if c == '#' then
      if p.breaksLines then some (p, 1 + (r.takeWhile isPlain).length) else none
    else p.read s

/-- Whether the file may end here. -/
def isComplete (p : Progress) : Bool :=
  p.containers.isEmpty && (p.wanted == .statement || p.wanted == .lineEnd)

end Progress

/-- Reads the rest of a file. -/
def readFrom (p : Progress) : List Char → Option Table
  | [] => if p.isComplete then some p.entries.toTable else none
  | c :: r =>
    match p.next (c :: r) with
    | some (p, n) => readFrom p (r.drop (n - 1))
    | none => none
termination_by s => s.length
decreasing_by simp only [List.length_drop, List.length_cons]; omega

/-- The table that a file spells. A mark of the byte order in front is passed over. -/
def parse? (text : String) : Option Table :=
  match text.toList with
  | '\ufeff' :: s => readFrom .start s
  | s => readFrom .start s

end PhpLint.Toml
