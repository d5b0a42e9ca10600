import PhpLint.Text.Shown

/-! Text between double quotes, with escapes for what cannot be shown. -/
namespace PhpLint.Text

/-- A character by its number, in hexadecimal digits. -/
def escapeNumber (c : Char) : String :=
  "\\u\x7b" ++ String.ofList (Nat.toDigits 16 c.toNat) ++ "\x7d"

def quotedChar (c : Char) : String :=
  match c with
  | '"' => "\\\""
  | '\\' => "\\\\"
  | '\n' => "\\n"
  | '\r' => "\\r"
  | '\t' => "\\t"
  | '\x00' => "\\0"
  | c => if isShown c then String.singleton c else escapeNumber c

def quoted (s : String) : String :=
  "\"" ++ String.join (s.toList.map quotedChar) ++ "\""

end PhpLint.Text
