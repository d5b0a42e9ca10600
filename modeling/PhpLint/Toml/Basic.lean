import PhpLint.Dict
import PhpLint.Number.Binary64

/-! Values of the TOML format. -/
namespace PhpLint.Toml

inductive Value where
  | string (s : String)
  | integer (n : Int)
  | float (x : Binary64)
  | boolean (b : Bool)
  /-- A date, a time or both, in their usual form. -/
  | datetime (text : String)
  | array (elements : List Value)
  /-- In the order of the keys. -/
  | table (entries : List (String × Value))
  deriving Repr, Inhabited

/-- A file or section: values by key. -/
abbrev Table := Dict Value

end PhpLint.Toml
