/-! Values of the JSON format. -/
namespace PhpLint

inductive Json where
  | null
  | bool (b : Bool)
  | int (n : Int)
  /-- A number with a fraction or an exponent, as it is written. -/
  | decimal (text : String)
  | str (s : String)
  | arr (elements : List Json)
  | obj (fields : List (String × Json))
  deriving Repr, Inhabited

namespace Json

def nat (n : Nat) : Json :=
  .int n

def strings (ss : List String) : Json :=
  .arr (ss.map .str)

/-- An absent value is null. -/
def opt {α : Type} (encode : α → Json) : Option α → Json
  | some a => encode a
  | none => .null

/-- The value of a field; of several with one name the last. -/
def field? (j : Json) (name : String) : Option Json :=
  match j with
  | .obj fields => (fields.reverse.find? (·.1 == name)).map (·.2)
  | _ => none

def str? : Json → Option String
  | .str s => some s
  | _ => none

def nat? : Json → Option Nat
  | .int n => n.toNat?
  | _ => none

def bool? : Json → Option Bool
  | .bool b => some b
  | _ => none

def arr? : Json → Option (List Json)
  | .arr elements => some elements
  | _ => none

end Json

end PhpLint
