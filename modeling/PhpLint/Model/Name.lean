import PhpLint.Model.Entity
import PhpLint.Text.Alphanumeric
import PhpLint.Token.Words

/-! Full names of classes: resolution of a written name in a namespace. -/
namespace PhpLint

/-- A name inside a namespace. -/
def Namespace.qualifyLocal (space name : String) : String :=
  if space.isEmpty then name else space ++ "\\" ++ name

namespace Namespace

/--
The full name that a written name stands for. A leading separator marks a full name; `namespace\A`
is relative to the namespace in force; otherwise the first segment may be an import.
-/
def qualify (ns : Namespace) (name : String) : String :=
  match name.toList with
  | '\\' :: full => String.ofList full
  | s =>
    let first := s.takeWhile (· != '\\')
    let rest := s.dropWhile (· != '\\')
    if Text.sameFold (String.ofList first) "namespace" && !rest.isEmpty then
      qualifyLocal ns.name (String.ofList (rest.drop 1))
    else
      match ns.imports.lookup (Text.fold (String.ofList first)) with
      | some full => full ++ String.ofList rest
      | none => qualifyLocal ns.name name

/-- Characters of the names inside a written type. -/
def isTypeNameChar (c : Char) : Bool :=
  Text.isAlphanumeric c || c == '_' || c == '\\'

/-- A word of a written type: builtin types stay, all others are class names. -/
def resolveWord (ns : Namespace) (word : List Char) : List Char :=
  if word.isEmpty then []
  else if Token.isBuiltinType (String.ofList word) then word
  else (ns.qualify (String.ofList word)).toList

/-- Resolves the words of a written type; `word` is the one in progress, reversed. -/
def resolveWords (ns : Namespace) (word : List Char) : List Char → List Char
  | [] => resolveWord ns word.reverse
  | c :: r =>
    if isTypeNameChar c then resolveWords ns (c :: word) r
    else resolveWord ns word.reverse ++ c :: resolveWords ns [] r

/-- A written type with every class name in it replaced by its full name. -/
def resolveType (ns : Namespace) (type : String) : String :=
  String.ofList (resolveWords ns [] type.toList)

end Namespace

end PhpLint
