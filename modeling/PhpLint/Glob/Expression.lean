import PhpLint.Glob.Basic
import PhpLint.Text.Hex

/-!
Patterns as regular expressions. Most patterns are matched as such; an expression must not nest too
deep. Expressions are of bytes: a character stands for as many items as it has bytes.
-/
namespace PhpLint.Glob

/-- The bytes of a character. -/
def charBytes (c : Char) : List UInt8 :=
  (String.singleton c).toUTF8.toList

/-- Ranges of bytes that a range of characters stands for: its ends are spelt out in bytes. -/
def byteRanges (first last : Char) : List (UInt8 × UInt8) :=
  if first == last then (charBytes first).map fun b => (b, b)
  else
    let low := charBytes first
    let high := charBytes last
    (low.dropLast.map fun b => (b, b)) ++ [(low.getLastD 0, high.headD 0)]
      ++ (high.drop 1).map fun b => (b, b)

mutual

/-- Whether a piece is an empty group, or a group of such; it matches no text at all. -/
def Piece.isBlank : Piece → Bool
  | .alternatives branches => areBlank branches
  | _ => false

def isBlankBranch : List Piece → Bool
  | [] => true
  | p :: ps => p.isBlank && isBlankBranch ps

def areBlank : List (List Piece) → Bool
  | [] => true
  | b :: bs => isBlankBranch b && areBlank bs

end

/-! ### The text of an expression -/

/-- Characters that mean something in an expression. -/
def isMeta (c : Char) : Bool :=
  ['\\', '.', '+', '*', '?', '(', ')', '|', '[', ']', '\x7b', '\x7d', '^', '$', '#', '&', '-',
    '~'].contains c

def byteText (b : UInt8) : String :=
  let c := Char.ofNat b.toNat
  if 0x80 ≤ b.toNat then "\\x" ++ Text.hex [b]
  else if isMeta c then "\\" ++ String.singleton c
  else String.singleton c

def charText (c : Char) : String :=
  String.join ((charBytes c).map byteText)

def rangeText (first last : Char) : String :=
  if first == last then charText first else charText first ++ "-" ++ charText last

mutual

/-- A blank group leaves nothing. -/
def Piece.text : Piece → String
  | .literal c => charText c
  | .any => "."
  | .star => ".*"
  | .leadingTree => "(?:/?|.*/)"
  | .trailingTree => "/.*"
  | .middleTree => "(?:/|/.*/)"
  | .oneOf negated ranges =>
    (if negated then "[^" else "[") ++ String.join (ranges.map fun (a, b) => rangeText a b) ++ "]"
  | .alternatives branches =>
    if areBlank branches then "" else "(?:" ++ "|".intercalate (branchTexts branches) ++ ")"

def textOfAll : List Piece → String
  | [] => ""
  | p :: ps => p.text ++ textOfAll ps

def branchTexts : List (List Piece) → List String
  | [] => []
  | b :: bs => if isBlankBranch b then branchTexts bs else textOfAll b :: branchTexts bs

end

/-- The expression of a pattern. -/
def expression (pieces : List Piece) : String :=
  "(?-u)^" ++ textOfAll pieces ++ "$"

/-! ### Depth -/

/-- The levels of a sequence or choice of items, from the levels of each; one item adds none. -/
def levels : List Nat → Nat
  | [] => 0
  | [n] => n
  | ns => ns.foldl max 0 + 1

mutual

/-- The levels of each item of a piece. Groups, repetitions, choices and classes are levels. -/
def Piece.items : Piece → List Nat
  | .literal c => (charBytes c).map fun _ => 0
  | .any => [0]
  | .star => [1]
  | .leadingTree => [4]
  | .trailingTree => [0, 1]
  | .middleTree => [4]
  | .oneOf _ ranges => [1 + levels ((ranges.flatMap fun (a, b) => byteRanges a b).map fun _ => 0)]
  | .alternatives branches =>
    if areBlank branches then [] else [1 + levels (branchLevels branches)]

def itemsOfAll : List Piece → List Nat
  | [] => []
  | p :: ps => p.items ++ itemsOfAll ps

def branchLevels : List (List Piece) → List Nat
  | [] => []
  | b :: bs => if isBlankBranch b then branchLevels bs else levels (itemsOfAll b) :: branchLevels bs

end

/-- The levels of a whole expression, which is a sequence of more than its pieces. -/
def depth (pieces : List Piece) : Nat :=
  (itemsOfAll pieces).foldl max 0 + 1

def depthLimit : Nat :=
  250

def isTooDeep (pieces : List Piece) : Bool :=
  depthLimit < depth pieces

end PhpLint.Glob
