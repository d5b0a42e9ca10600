import PhpLint.Json.Basic
import PhpLint.Text.Hex

/-! Writing of JSON: on one line, or with one value a line and two blanks for each level. -/
namespace PhpLint.Json

/-- A character inside a string. -/
def escapeChar (c : Char) : List Char :=
  if c == '"' then ['\\', '"']
  else if c == '\\' then ['\\', '\\']
  else if c == '\n' then ['\\', 'n']
  else if c == '\r' then ['\\', 'r']
  else if c == '\t' then ['\\', 't']
  else if c == '\x08' then ['\\', 'b']
  else if c == '\x0c' then ['\\', 'f']
  else if c.toNat < 0x20 then
    ['\\', 'u', '0', '0', Text.hexDigit (c.toNat / 16), Text.hexDigit (c.toNat % 16)]
  else [c]

def quote (s : String) : String :=
  "\"" ++ String.ofList (s.toList.flatMap escapeChar) ++ "\""

mutual

/-- The value on one line, without blanks. -/
def compact : Json → String
  | .null => "null"
  | .bool b => if b then "true" else "false"
  | .int n => toString n
  | .decimal text => text
  | .str s => quote s
  | .arr elements => "[" ++ ",".intercalate (compactElements elements) ++ "]"
  | .obj fields => "\x7b" ++ ",".intercalate (compactFields fields) ++ "\x7d"

def compactElements : List Json → List String
  | [] => []
  | j :: js => j.compact :: compactElements js

def compactFields : List (String × Json) → List String
  | [] => []
  | (name, j) :: fields => (quote name ++ ":" ++ j.compact) :: compactFields fields

end

/-- A line break and the blanks of a level. -/
def newLine (level : Nat) : String :=
  "\n" ++ String.ofList (List.replicate (2 * level) ' ')

/-- Items between brackets, each on a line of its own. -/
def block (opening closing : String) (level : Nat) (items : List String) : String :=
  if items.isEmpty then opening ++ closing
  else
    let inner := newLine (level + 1)
    opening ++ inner ++ ("," ++ inner).intercalate items ++ newLine level ++ closing

mutual

/-- The value with one element or field a line, at a level of nesting. -/
def pretty (level : Nat) : Json → String
  | .null => "null"
  | .bool b => if b then "true" else "false"
  | .int n => toString n
  | .decimal text => text
  | .str s => quote s
  | .arr elements => block "[" "]" level (prettyElements (level + 1) elements)
  | .obj fields => block "\x7b" "\x7d" level (prettyFields (level + 1) fields)

def prettyElements (level : Nat) : List Json → List String
  | [] => []
  | j :: js => j.pretty level :: prettyElements level js

def prettyFields (level : Nat) : List (String × Json) → List String
  | [] => []
  | (name, j) :: fields => (quote name ++ ": " ++ j.pretty level) :: prettyFields level fields

end

end PhpLint.Json
