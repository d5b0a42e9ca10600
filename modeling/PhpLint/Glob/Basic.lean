/-!
Path patterns. A star and a question mark also match separators; two stars that make up a whole
component match any number of directories.
-/
namespace PhpLint.Glob

/-- A part of a pattern. -/
inductive Piece where
  | literal (c : Char)
  /-- One byte. -/
  | any
  /-- Any number of bytes. -/
  | star
  /-- Directories at the front of the path, or none. -/
  | leadingTree
  /-- Everything below a directory. -/
  | trailingTree
  /-- A separator, or directories between two separators. -/
  | middleTree
  /-- One byte of some ranges, or one outside all of them. -/
  | oneOf (negated : Bool) (ranges : List (Char × Char))
  | alternatives (branches : List (List Piece))
  deriving Repr, Inhabited

/-- What is wrong with a pattern. -/
inductive Error where
  | unclosedClass
  | invalidRange (first last : Char)
  | unopenedGroup
  | unclosedGroup
  deriving DecidableEq, Repr

def Error.message : Error → String
  | .unclosedClass => "unclosed character class; missing ']'"
  | .invalidRange first last => s!"invalid range; '{first}' > '{last}'"
  | .unopenedGroup =>
    "unopened alternate group; missing '\x7b' (maybe escape '\x7d' with '[\x7d]'?)"
  | .unclosedGroup =>
    "unclosed alternate group; missing '\x7d' (maybe escape '\x7b' with '[\x7b]'?)"

end PhpLint.Glob
