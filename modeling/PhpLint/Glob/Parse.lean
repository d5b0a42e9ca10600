import PhpLint.Glob.Basic

/-! Reading of path patterns. -/
namespace PhpLint.Glob

/-! ### Classes -/

/-- A class read in part. -/
structure ClassProgress where
  /-- The latest range comes first. -/
  ranges : List (Char × Char)
  /-- A hyphen has made the latest character the beginning of a range. -/
  inRange : Bool

/-- Takes in a character of a class. -/
def ClassProgress.next (p : ClassProgress) (isFirst : Bool) (c : Char) :
    Except Error ClassProgress :=
  if c == '-' && !isFirst && !p.inRange then .ok { p with inRange := true }
  else
    match p.inRange, p.ranges with
    | true, (first, _) :: ranges =>
      if c < first then .error (.invalidRange first c) else .ok ⟨(first, c) :: ranges, false⟩
    | _, ranges => .ok ⟨(c, c) :: ranges, false⟩

/-- The ranges of a class; a hyphen at its end stands for itself. -/
def ClassProgress.finish (p : ClassProgress) : List (Char × Char) :=
  (if p.inRange then ('-', '-') :: p.ranges else p.ranges).reverse

/-- The ranges up to the closing bracket, and the number of characters with the bracket. -/
def readClass (p : ClassProgress) (n : Nat) : List Char → Except Error (List (Char × Char) × Nat)
  | [] => .error .unclosedClass
  | c :: r =>
    if c == ']' && n != 0 then .ok (p.finish, n + 1)
    else do
      let p ← p.next (n == 0) c
      readClass p (n + 1) r

/-- The class after its opening bracket, and its number of characters. -/
def class? (s : List Char) : Except Error (Piece × Nat) := do
  let negated := s.head? == some '!' || s.head? == some '^'
  let mark := if negated then 1 else 0
  let (ranges, n) ← readClass ⟨[], false⟩ 0 (s.drop mark)
  return (.oneOf negated ranges, mark + n)

/-! ### Patterns -/

/-- A group that is open: the branch around it, and its finished branches, all reversed. -/
structure Group where
  around : List Piece
  branches : List (List Piece)

/-- A pattern read in part. -/
structure Progress where
  /-- The branch in progress, reversed. -/
  branch : List Piece
  /-- Open groups, innermost first. -/
  groups : List Group

namespace Progress

def start : Progress :=
  ⟨[], []⟩

def push (p : Progress) (piece : Piece) : Progress :=
  { p with branch := piece :: p.branch }

def openGroup (p : Progress) : Progress :=
  ⟨[], ⟨p.branch, []⟩ :: p.groups⟩

def closeGroup (p : Progress) : Except Error Progress :=
  match p.groups with
  | [] => .error .unopenedGroup
  | g :: groups =>
    let branches := (p.branch.reverse :: g.branches).reverse
    .ok ⟨.alternatives branches :: g.around, groups⟩

/-- A comma separates the branches of a group; elsewhere it stands for itself. -/
def comma (p : Progress) : Progress :=
  match p.groups with
  | [] => p.push (.literal ',')
  | g :: groups => ⟨[], { g with branches := p.branch.reverse :: g.branches } :: groups⟩

/-- Puts directories in place of the separator before them. -/
def pushTree (p : Progress) (atEnd : Bool) : Progress :=
  match p.branch with
  | .leadingTree :: _ => p
  | .trailingTree :: _ => p
  | _ :: rest => { p with branch := (if atEnd then .trailingTree else .middleTree) :: rest }
  | [] => p

/--
Two stars after the character `prev` and before `r`; also the number of characters of `r` that
belong to them. They stand for directories if they make up a component of their own.
-/
def doubleStar (p : Progress) (prev : Option Char) (r : List Char) : Progress × Nat :=
  let twoStars := (p.push .star).push .star
  let inGroup := !p.groups.isEmpty
  if p.branch.isEmpty then
    match r.head? with
    | none => (p.push .leadingTree, 0)
    | some '/' => (p.push .leadingTree, 1)
    | some _ => (twoStars, 0)
  else if prev != some '/' && !(inGroup && (prev == some ',' || prev == some '\x7b')) then
    (twoStars, 0)
  else
    match r.head? with
    | none => (p.pushTree true, 0)
    | some '/' => (p.pushTree false, 1)
    | some c => if inGroup && (c == ',' || c == '\x7d') then (p.pushTree true, 0) else (twoStars, 0)

/-- Takes in the piece that starts with `c`, and the number of further characters it has. -/
def next (p : Progress) (prev : Option Char) (c : Char) (r : List Char) :
    Except Error (Progress × Nat) :=
  match c with
  | '?' => .ok (p.push .any, 0)
  | '*' =>
    match r with
    | '*' :: r =>
      let (p, n) := p.doubleStar prev r
      .ok (p, n + 1)
    | _ => .ok (p.push .star, 0)
  | '[' => (class? r).map fun (piece, n) => (p.push piece, n)
  | '{' => .ok (p.openGroup, 0)
  | '}' => p.closeGroup.map (·, 0)
  | ',' => .ok (p.comma, 0)
  | c => .ok (p.push (.literal c), 0)

end Progress

/-- Reads the rest of a pattern, which comes after the character `prev`. -/
def readFrom (p : Progress) (prev : Option Char) : List Char → Except Error (List Piece)
  | [] => if p.groups.isEmpty then .ok p.branch.reverse else .error .unclosedGroup
  | c :: r =>
    match p.next prev c r with
    | .error e => .error e
    | .ok (p, n) => readFrom p (c :: r.take n).getLast? (r.drop n)
termination_by s => s.length
decreasing_by simp only [List.length_drop, List.length_cons]; omega

/-- The pieces of a pattern. -/
def parse (pattern : String) : Except Error (List Piece) :=
  readFrom .start none pattern.toList

end PhpLint.Glob
