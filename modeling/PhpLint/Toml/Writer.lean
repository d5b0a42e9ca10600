import PhpLint.Number.Shortest
import PhpLint.Text.Hex
import PhpLint.Toml.Basic

/-! Writing of TOML values on one line, as far as their texts have no line breaks. -/
namespace PhpLint.Toml

/-! ### Texts -/

/-- The length of the longest run of a character. -/
def longestRun (c : Char) : (run longest : Nat) → List Char → Nat
  | _, longest, [] => longest
  | run, longest, d :: r =>
    if d == c then longestRun c (run + 1) (max longest (run + 1)) r
    else longestRun c 0 longest r

/-- Characters that never stand for themselves. -/
def isControl (c : Char) : Bool :=
  (c.toNat < 0x20 && c != '\t' && c != '\n') || c == '\x7f'

/-- A character between double quotes; line breaks stand for themselves in a long text. -/
def escapeChar (long : Bool) (c : Char) : List Char :=
  match c with
  | '\x08' => ['\\', 'b']
  | '\t' => ['\\', 't']
  | '\n' => if long then ['\n'] else ['\\', 'n']
  | '\x0c' => ['\\', 'f']
  | '\r' => ['\\', 'r']
  | '\\' => ['\\', '\\']
  | c =>
    if isControl c then
      ['\\', 'u', '0', '0', Text.hexDigitUpper (c.toNat / 16), Text.hexDigitUpper (c.toNat % 16)]
    else [c]

/-- The inside of a text in double quotes. In a long text up to two quotes in a row stay. -/
def escapeFrom (long : Bool) (quotes : Nat) : List Char → List Char
  | [] => []
  | c :: r =>
    if c == '"' then
      if quotes < (if long then 2 else 0) then '"' :: escapeFrom long (quotes + 1) r
      else '\\' :: '"' :: escapeFrom long 0 r
    else escapeChar long c ++ escapeFrom long 0 r

/-- Ways to quote a text. -/
inductive Quotes where
  | double
  | single
  | tripleDouble
  | tripleSingle
  deriving DecidableEq, Repr

/-- The simplest way in which nothing has to be escaped, if there is one. -/
def quotesFor (s : List Char) : Quotes :=
  let controls := s.any isControl
  let backslash := s.contains '\\'
  let newline := s.contains '\n'
  let singles := longestRun '\'' 0 0 s
  let doubles := longestRun '"' 0 0 s
  if !controls && !backslash && doubles == 0 && !newline then .double
  else if !controls && singles == 0 && !newline then .single
  else if !controls && !backslash && doubles ≤ 2 then .tripleDouble
  else if !controls && singles ≤ 2 then .tripleSingle
  else if newline then .tripleDouble
  else .double

/-- A line break behind three quotes does not belong to the text. -/
def firstBreak (s : List Char) : String :=
  if s.contains '\n' then "\n" else ""

def quote (text : String) : String :=
  let s := text.toList
  match quotesFor s with
  | .double => "\"" ++ String.ofList (escapeFrom false 0 s) ++ "\""
  | .single => "'" ++ text ++ "'"
  | .tripleDouble =>
    "\"\"\"" ++ firstBreak s ++ String.ofList (escapeFrom true 0 s) ++ "\"\"\""
  | .tripleSingle => "'''" ++ firstBreak s ++ text ++ "'''"

/-- Characters of keys without quotes. -/
def isBareChar (c : Char) : Bool :=
  c.isAlphanum || c == '-' || c == '_'

/-- A key, with quotes only where it needs them. -/
def writeKey (key : String) : String :=
  let s := key.toList
  let controls := s.any fun c => isControl c || c == '\n'
  if !s.isEmpty && s.all isBareChar then key
  else if !controls && !s.contains '\'' && (s.contains '\\' || s.contains '"') then
    "'" ++ key ++ "'"
  else "\"" ++ String.ofList (escapeFrom false 0 s) ++ "\""

/-! ### Values -/

/-- A number with a point; one that is not a number has no sign. -/
def writeFloat (x : Binary64) : String :=
  let sign (negative : Bool) : String := if negative then "-" else ""
  match x with
  | .nan => "nan"
  | .infinite negative => sign negative ++ "inf"
  | .finite negative 0 _ => sign negative ++ "0.0"
  | .finite negative m e =>
    let (digits, k) := Binary64.shortest m e
    sign negative ++ Binary64.positional digits k ++ (if 0 ≤ k then ".0" else "")

/-- The fields of a table. -/
def writeTable (fields : List String) : String :=
  if fields.isEmpty then "\x7b\x7d" else "\x7b " ++ ", ".intercalate fields ++ " \x7d"

mutual

def Value.write : Value → String
  | .string s => quote s
  | .integer n => toString n
  | .float x => writeFloat x
  | .boolean b => if b then "true" else "false"
  | .datetime text => text
  | .array elements => "[" ++ ", ".intercalate (writeElements elements) ++ "]"
  | .table entries => writeTable (writeEntries entries)

def writeElements : List Value → List String
  | [] => []
  | v :: vs => v.write :: writeElements vs

def writeEntries : List (String × Value) → List String
  | [] => []
  | (key, v) :: entries => (writeKey key ++ " = " ++ v.write) :: writeEntries entries

end

/-- The value in a message: a text without quotes, a date as a table of one field. -/
def Value.display : Value → String
  | .string s => s
  | .datetime text => writeTable [writeKey "$__toml_private_datetime" ++ " = " ++ quote text]
  | v => v.write

end PhpLint.Toml
