import PhpLint.Json.Basic
import PhpLint.Text.Hex

/-!
Values as they are written: the insides of strings are not read yet, so that a value may hold
strings that spell no text where nobody asks for them.
-/
namespace PhpLint.Json

/-- The inside of a string has one character for each byte. -/
inductive Raw where
  | null
  | bool (b : Bool)
  | int (n : Int)
  /-- A number with a fraction or an exponent. -/
  | decimal (text : String)
  | str (inside : List Char)
  | arr (elements : List Raw)
  | obj (fields : List (List Char × Raw))
  deriving Repr, Inhabited

/-! ### Strings -/

/-- The character of a simple escape. -/
def simpleEscape? (c : Char) : Option Char :=
  match c with
  | '"' | '\\' | '/' => some c
  | 'b' => some '\x08'
  | 'f' => some '\x0c'
  | 'n' => some '\n'
  | 'r' => some '\r'
  | 't' => some '\t'
  | _ => none

/-- The code units that the inside of a string spells. -/
def units? : List Char → Option (List Nat)
  | [] => some []
  | '\\' :: 'u' :: a :: b :: c :: d :: r => do
    let unit ← Text.hexNumber? [a, b, c, d]
    return unit :: (← units? r)
  | '\\' :: e :: r => do
    let c ← simpleEscape? e
    return c.toNat :: (← units? r)
  | c :: r => do
    guard (0x20 ≤ c.toNat && c != '\\')
    return c.toNat :: (← units? r)

/-- The characters of code units; a high half needs the low half of its pair. -/
def joinUnits? : List Nat → Option (List Char)
  | [] => some []
  | [u] => if 0xd800 ≤ u && u < 0xe000 then none else some [Char.ofNat u]
  | u :: v :: r =>
    if 0xd800 ≤ u && u < 0xdc00 then
      if 0xdc00 ≤ v && v < 0xe000 then do
        let c := Char.ofNat (0x10000 + (u - 0xd800) * 0x400 + (v - 0xdc00))
        return c :: (← joinUnits? r)
      else none
    else if 0xdc00 ≤ u && u < 0xe000 then none
    else do return Char.ofNat u :: (← joinUnits? (v :: r))

/-- The text inside a string. -/
def unescape? (raw : List Char) : Option String :=
  ((units? raw).bind joinUnits?).map String.ofList

/-- Whether all escapes are known, and nothing stands unescaped that must not. -/
def isWellFormed : List Char → Bool
  | [] => true
  | '\\' :: 'u' :: a :: b :: c :: d :: r =>
    (Text.hexNumber? [a, b, c, d]).isSome && isWellFormed r
  | '\\' :: e :: r => (simpleEscape? e).isSome && isWellFormed r
  | c :: r => 0x20 ≤ c.toNat && c != '\\' && isWellFormed r

/-- The text that the inside of a string spells. Its bytes need not be the bytes of a text. -/
def text? (inside : List Char) : Option String :=
  (String.fromUTF8? ⟨(inside.map fun c => UInt8.ofNat c.toNat).toArray⟩).bind fun s =>
    unescape? s.toList

/-! ### Values -/

namespace Raw

mutual

/-- The value with all of its strings read. -/
def value? : Raw → Option Json
  | .null => some .null
  | .bool b => some (.bool b)
  | .int n => some (.int n)
  | .decimal text => some (.decimal text)
  | .str inside => (text? inside).map .str
  | .arr elements => (values? elements).map .arr
  | .obj fields => (fieldValues? fields).map .obj

def values? : List Raw → Option (List Json)
  | [] => some []
  | j :: js => do
    let value ← j.value?
    return value :: (← values? js)

def fieldValues? : List (List Char × Raw) → Option (List (String × Json))
  | [] => some []
  | (inside, j) :: fields => do
    let name ← text? inside
    let value ← j.value?
    return (name, value) :: (← fieldValues? fields)

end

/-! ### Parts of records -/

def str? : Raw → Option String
  | .str inside => text? inside
  | _ => none

def bool? : Raw → Option Bool
  | .bool b => some b
  | _ => none

/-- A natural number that fits into so many bits. -/
def nat? (bits : Nat) : Raw → Option Nat
  | .int n => n.toNat?.filter (· < Nat.pow 2 bits)
  | _ => none

/-- A list of values that all decode. -/
def list? {α : Type} (decode : Raw → Option α) : Raw → Option (List α)
  | .arr elements => elements.mapM decode
  | _ => none

/-- A value or null. -/
def option? {α : Type} (decode : Raw → Option α) : Raw → Option (Option α)
  | .null => some none
  | j => (decode j).map some

/-- One of several words: a string, or the only field of an object, which holds nothing. -/
def word? : Raw → Option String
  | .str inside => text? inside
  | .obj [(inside, .null)] => text? inside
  | _ => none

/--
The fields of a record: those of an object, which may have others too but none of them twice, or
the elements of an array, which follow the order of the names.
-/
def record? (names : List String) : Raw → Option (List (String × Raw))
  | .arr elements => if elements.length == names.length then some (names.zip elements) else none
  | .obj fields => do
    let fields ← fields.mapM fun (inside, j) => (text? inside).map (·, j)
    let fields := fields.filter fun (name, _) => names.contains name
    guard (fields.map (·.1)).Nodup
    return fields
  | _ => none

end Raw

end PhpLint.Json
