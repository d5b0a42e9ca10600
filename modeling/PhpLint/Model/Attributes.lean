import PhpLint.Text.Ascii
import PhpLint.Text.Hex
import PhpLint.Text.WhiteSpace

/-! Visibility and modifiers of a declaration. -/
namespace PhpLint

inductive Modifier where
  | publicAccess
  | protectedAccess
  | privateAccess
  | static
  | abstract
  | final
  deriving DecidableEq, Repr

namespace Modifier

/-- All modifiers, in the order of their bits. -/
def all : List Modifier :=
  [.publicAccess, .protectedAccess, .privateAccess, .static, .abstract, .final]

def name : Modifier → String
  | .publicAccess => "PUBLIC"
  | .protectedAccess => "PROTECTED"
  | .privateAccess => "PRIVATE"
  | .static => "STATIC"
  | .abstract => "ABSTRACT"
  | .final => "FINAL"

def bit : Modifier → Nat
  | .publicAccess => 1
  | .protectedAccess => 2
  | .privateAccess => 4
  | .static => 8
  | .abstract => 16
  | .final => 32

/-- The modifier that a word stands for, in any case. -/
def ofKeyword? (word : String) : Option Modifier :=
  match Text.fold word with
  | "public" | "var" => some .publicAccess
  | "protected" => some .protectedAccess
  | "private" => some .privateAccess
  | "static" => some .static
  | "abstract" => some .abstract
  | "final" => some .final
  | _ => none

end Modifier

/-- A set of modifiers. -/
structure Attributes where
  publicAccess : Bool
  protectedAccess : Bool
  privateAccess : Bool
  static : Bool
  abstract : Bool
  final : Bool
  /-- Bits above those of the modifiers. They mean nothing and are kept. -/
  spare : Fin 4
  deriving DecidableEq, Repr, Inhabited

namespace Attributes

def empty : Attributes :=
  ⟨false, false, false, false, false, false, 0⟩

/-- The modifiers of both sets. -/
def union (a b : Attributes) : Attributes where
  publicAccess := a.publicAccess || b.publicAccess
  protectedAccess := a.protectedAccess || b.protectedAccess
  privateAccess := a.privateAccess || b.privateAccess
  static := a.static || b.static
  abstract := a.abstract || b.abstract
  final := a.final || b.final
  spare := a.spare ||| b.spare

def has (a : Attributes) : Modifier → Bool
  | .publicAccess => a.publicAccess
  | .protectedAccess => a.protectedAccess
  | .privateAccess => a.privateAccess
  | .static => a.static
  | .abstract => a.abstract
  | .final => a.final

def insert (a : Attributes) : Modifier → Attributes
  | .publicAccess => { a with publicAccess := true }
  | .protectedAccess => { a with protectedAccess := true }
  | .privateAccess => { a with privateAccess := true }
  | .static => { a with static := true }
  | .abstract => { a with abstract := true }
  | .final => { a with final := true }

def ofList (ms : List Modifier) : Attributes :=
  ms.foldl insert empty

def toList (a : Attributes) : List Modifier :=
  Modifier.all.filter a.has

/-- A declaration without a visibility keyword is public. -/
def isPublic (a : Attributes) : Bool :=
  a.publicAccess || !(a.privateAccess || a.protectedAccess)

def spareBits (a : Attributes) : Nat :=
  64 * a.spare.val

def bits (a : Attributes) : Nat :=
  a.toList.foldl (fun n m => n + m.bit) a.spareBits

/-- The set whose bits are those of a number below 256. -/
def ofBits (n : Nat) : Attributes :=
  { ofList (Modifier.all.filter fun m => n / m.bit % 2 == 1) with spare := Fin.ofNat 4 (n / 64) }

/-- The names of the modifiers and the spare bits in hexadecimal, with bars between them. -/
def text (a : Attributes) : String :=
  let names := a.toList.map Modifier.name
  " | ".intercalate (if a.spare == 0 then names
    else names ++ ["0x" ++ String.ofList (Nat.toDigits 16 a.spareBits)])

/-- The number of one byte that hexadecimal digits spell, perhaps after a plus sign. -/
def byte? (s : List Char) : Option Nat :=
  let digits := if s.head? == some '+' then s.drop 1 else s
  if digits.isEmpty then none else (Text.hexNumber? digits).filter (· < 256)

/-- The set of one piece of a text: a name, or bits in hexadecimal. -/
def piece? (piece : List Char) : Option Attributes :=
  match piece with
  | '0' :: 'x' :: number => (byte? number).map ofBits
  | _ => (Modifier.all.find? fun m => m.name.toList == piece).map empty.insert

/-- The set that a text names. -/
def ofText? (text : String) : Option Attributes :=
  let trimmed := Text.trimBy Text.isWhiteSpace text.toList
  if trimmed.isEmpty then some empty
  else do
    let pieces := (Text.splitAt '|' trimmed).map (Text.trimBy Text.isWhiteSpace)
    return (← pieces.mapM piece?).foldl union empty

end Attributes

end PhpLint
