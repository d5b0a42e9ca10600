import PhpLint.Glob.Expression

/-! Matching of paths. Paths are compared byte by byte. -/
namespace PhpLint.Glob

/-! ### The language of a pattern -/

/--
Which beginnings of a text have been matched: a mark for each length, from that of nothing to that
of the whole text.
-/
abbrev Marks := List Bool

namespace Marks

/-- Nothing has been matched yet. -/
def start (text : List UInt8) : Marks :=
  true :: text.map fun _ => false

/-- One more byte that satisfies `p`. -/
def advance (text : List UInt8) (p : UInt8 → Bool) (marks : Marks) : Marks :=
  false :: List.zipWith (fun b m => m && p b) text marks

/-- Any number of bytes more. -/
def spread (reached : Bool) : Marks → Marks
  | [] => []
  | m :: ms => (reached || m) :: spread (reached || m) ms

/-- What either of two has matched. -/
def both (a b : Marks) : Marks :=
  List.zipWith (· || ·) a b

/-- A separator more. -/
def separator (text : List UInt8) (marks : Marks) : Marks :=
  marks.advance text (· == 0x2f)

/-- Directories more, or none. -/
def directories (text : List UInt8) (marks : Marks) : Marks :=
  marks.both ((marks.spread false).separator text)

end Marks

def inRanges (ranges : List (Char × Char)) (b : UInt8) : Bool :=
  ranges.any fun (first, last) =>
    (byteRanges first last).any fun (low, high) => low ≤ b && b ≤ high

mutual

/-- The marks of a text after a piece, from those before it. -/
def Piece.advance (text : List UInt8) (marks : Marks) : Piece → Marks
  | .literal c => (charBytes c).foldl (fun marks b => marks.advance text (· == b)) marks
  | .any => marks.advance text fun _ => true
  | .star => marks.spread false
  | .leadingTree => marks.directories text
  | .trailingTree => (marks.separator text).spread false
  | .middleTree => (marks.separator text).directories text
  | .oneOf negated ranges => marks.advance text fun b => inRanges ranges b != negated
  | .alternatives branches =>
    if areBlank branches then marks else advanceAny text marks branches

def advanceAll (text : List UInt8) (marks : Marks) : List Piece → Marks
  | [] => marks
  | p :: ps => advanceAll text (p.advance text marks) ps

/-- A blank branch beside others is left out. -/
def advanceAny (text : List UInt8) (marks : Marks) : List (List Piece) → Marks
  | [] => marks.map fun _ => false
  | b :: bs =>
    if isBlankBranch b then advanceAny text marks bs
    else (advanceAll text marks b).both (advanceAny text marks bs)

end

/-- Whether a pattern spells a text. -/
def spells (pieces : List Piece) (text : List UInt8) : Bool :=
  (advanceAll text (Marks.start text) pieces).getLast? == some true

/-! ### Ways to match -/

/-- What of a path a pattern is compared with. -/
inductive Method where
  /-- The file name or its extension alone. -/
  | fileName
  /-- The path: all of it, its beginning or its end. -/
  | path
  /-- The extension of the file name, then the path as a text of the pattern's expression. -/
  | extensionFirst
  /-- The path as a text of the pattern's expression. -/
  | expression
  deriving DecidableEq, Repr

/-- The character of a piece that stands for itself. -/
def Piece.literal? : Piece → Option Char
  | .literal c => some c
  | _ => none

/-- Whether a pattern is a path, or the beginning of paths. -/
def isBeginning (pieces : List Piece) : Bool :=
  match pieces.reverse with
  | .star :: r => !r.isEmpty && r.all (·.literal?.isSome)
  | .trailingTree :: r => r.all (·.literal?.isSome)
  | r => !r.isEmpty && r.all (·.literal?.isSome)

/-- Whether a pattern ends with a point and literals after it, all in one component. -/
def endsWithExtension (pieces : List Piece) : Bool :=
  let ending := pieces.reverse.takeWhile fun p => p.literal?.any fun c => c != '.' && c != '/'
  (pieces.reverse.drop ending.length).head?.any fun p => p.literal? == some '.'

/-- How ends of paths are matched: literals, perhaps after a star, perhaps after directories. -/
def endMethod? (pieces : List Piece) : Option Method :=
  let (tree, rest) := match pieces with
    | .leadingTree :: rest => (true, rest)
    | _ => (false, pieces)
  let (star, rest) := match rest with
    | .star :: rest => (true, rest)
    | _ => (false, rest)
  match rest.mapM Piece.literal? with
  | none | some [] => none
  | some (c :: ending) =>
    if star && c == '.' && !ending.contains '.' && !ending.contains '/' then some .fileName
    else if tree && !star && !(c :: ending).contains '/' then some .fileName
    else if star && c == '/' && ending.isEmpty then none
    else some .path

def method (pieces : List Piece) : Method :=
  match endMethod? pieces with
  | some m => m
  | none =>
    if isBeginning pieces then .path
    else if endsWithExtension pieces then .extensionFirst
    else .expression

/-- Whether the last component of a path is that of the directory above; it is no file name. -/
def endsAbove (path : String) : Bool :=
  match path.toList.reverse with
  | '.' :: '.' :: r => r.isEmpty || r.head? == some '/'
  | _ => false

/-- Whether a pattern matches a path. -/
def isMatch (pieces : List Piece) (path : String) : Bool :=
  let byName := method pieces == .fileName || method pieces == .extensionFirst
  match pieces with
  | [.leadingTree] => true
  | _ => !(byName && endsAbove path) && spells pieces path.toUTF8.toList

/-! ### Several patterns at once -/

/-- A pattern that nests too deep. -/
inductive DepthError where
  /-- Its expression, if it is matched by the extension first. -/
  | ofExtension (expression : String)
  /-- Its place among the patterns that are matched by their expressions alone. -/
  | ofExpression (index : Nat)
  deriving DecidableEq, Repr

def DepthError.message : DepthError → String
  | .ofExtension expression => s!"error parsing glob '{expression}': error parsing pattern 0"
  | .ofExpression index => s!"error parsing pattern {index}"

/-- Patterns that are matched by the extension first are looked at before the others. -/
def checkDepth (patterns : List (List Piece)) : Except DepthError Unit :=
  let ofMethod (m : Method) : List (List Piece) := patterns.filter (method · == m)
  match (ofMethod .extensionFirst).find? isTooDeep with
  | some pieces => .error (.ofExtension (expression pieces))
  | none =>
    match (ofMethod .expression).findIdx? isTooDeep with
    | some index => .error (.ofExpression index)
    | none => .ok ()

end PhpLint.Glob
