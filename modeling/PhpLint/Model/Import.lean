import PhpLint.Model.Entity
import PhpLint.Model.Lexeme

/-! Reading of `use` statements. -/
namespace PhpLint.Import

/-- A statement read in part. -/
structure Progress where
  /-- Short names with their full names, in the order of the statement. -/
  found : ImportMap
  /-- The name in front of the braces of a group. -/
  group : String
  name : String
  alias? : Option String
  /-- The next lexeme is the alias. -/
  aliasNext : Bool
  /-- The entry is a function or a constant. -/
  skipped : Bool
  deriving Repr

def Progress.start : Progress :=
  ⟨[], "", "", none, false, false⟩

/-- The last segment of a name. -/
def lastSegment (name : String) : String :=
  String.ofList (name.toList.reverse.takeWhile (· != '\\')).reverse

/-- Records the entry in progress, if it has a name and names a class. -/
def Progress.finish (p : Progress) : ImportMap :=
  if p.skipped || p.name.isEmpty then p.found
  else
    let full := Text.dropLeading '\\' (p.group ++ p.name)
    p.found ++ [(Text.fold (p.alias?.getD (lastSegment full)), full)]

/-- Goes on after one lexeme that neither ends the statement nor introduces an alias. -/
def Progress.next (p : Progress) (x : Lexeme) : Progress :=
  if x.is "\x7b" then { p with group := p.name, name := "" }
  else if x.is "," || x.is "\x7d" then
    ⟨p.finish, if x.is "\x7d" then "" else p.group, "", none, false, false⟩
  else if p.name.isEmpty && !p.group.isEmpty
      && (x.isKeyword "function" || x.isKeyword "const") then
    { p with skipped := true }
  else if x.isNamePart then { p with name := p.name ++ x.text }
  else p

/-- Reads up to the end of the statement. The lexeme after `as` is the alias, whatever it is. -/
def readFrom (p : Progress) : List Lexeme → ImportMap × List Lexeme
  | [] => (p.finish, [])
  | x :: r =>
    if p.aliasNext then readFrom { p with alias? := some x.text, aliasNext := false } r
    else if x.isTerminator then (p.finish, x :: r)
    else if x.isKeyword "as" then readFrom { p with aliasNext := true } r
    else readFrom (p.next x) r

/-- The imports of the statement whose `use` was just read, and what follows it. -/
def read (s : List Lexeme) : ImportMap × List Lexeme :=
  let (found, after) := readFrom .start s
  let skipsAll := s.head?.any fun x => x.isKeyword "function" || x.isKeyword "const"
  (if skipsAll then [] else found, after)

end PhpLint.Import
