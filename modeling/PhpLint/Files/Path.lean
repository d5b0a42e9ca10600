import PhpLint.Text.Ascii

/-!
Paths as text. Names are separated by slashes; empty names and single points in between mean
nothing, and two points are kept.
-/
namespace PhpLint.Path

def isAbsolute (path : String) : Bool :=
  path.toList.head? == some '/'

/-- A path from a directory; an absolute path stays as it is. -/
def join (base path : String) : String :=
  if isAbsolute path || base.isEmpty then path
  else if base.toList.getLast? == some '/' then base ++ path
  else base ++ "/" ++ path

/-- The names between the slashes, also those that mean nothing. -/
def pieces (path : String) : List String :=
  (Text.splitAt '/' path.toList).map String.ofList

def isIdle (piece : String) : Bool :=
  piece == "" || piece == "."

/-- The names that count. A relative path may begin with a point. -/
def components (path : String) : List String :=
  match pieces path with
  | "." :: rest => "." :: rest.filter (!isIdle ·)
  | all => all.filter (!isIdle ·)

/-- The pieces without those at the end that mean nothing. -/
def trimEnd (pieces : List String) : List String :=
  (pieces.reverse.dropWhile isIdle).reverse

/-- The text of some pieces of a path. -/
def ofPieces (absolute : Bool) (pieces : List String) : String :=
  (if absolute then "/" else "") ++ "/".intercalate pieces

/-- The path without its last component, as it is written. -/
def parent? (path : String) : Option String :=
  let absolute := isAbsolute path
  let body := if absolute then (pieces path).drop 1 else pieces path
  match trimEnd body with
  | [] => none
  | first :: rest =>
    let kept := trimEnd (first :: rest).dropLast
    some (ofPieces absolute (if kept.isEmpty && !absolute && first == "." && !rest.isEmpty
      then ["."] else kept))

/-- The last component, if it names something. -/
def fileName? (path : String) : Option String :=
  (components path).getLast?.filter fun name => name != ".." && name != "."

/-- What follows the last point of a file name that does not begin the name. -/
def extension? (path : String) : Option String :=
  (fileName? path).bind fun name =>
    let s := name.toList
    let after := (s.reverse.takeWhile (· != '.')).reverse
    if after.length + 1 < s.length then some (String.ofList after) else none

/-- The components below a directory, if the path lies in it. -/
def below? (root path : String) : Option (List String) :=
  let names := components root
  if isAbsolute root == isAbsolute path && names.isPrefixOf (components path) then
    some ((components path).drop names.length)
  else none

/-- A path and all its parents. -/
def ancestors (path : String) : List String :=
  go (path.length + 1) path
where
  go : Nat → String → List String
    | 0, _ => []
    | n + 1, path =>
      path :: match parent? path with
        | some p => go n p
        | none => []

end PhpLint.Path
