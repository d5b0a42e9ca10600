import PhpLint.Defect.Severity
import PhpLint.Json.Raw
import PhpLint.Model.SourceFile
import PhpLint.Text.Hex

/-!
Defects. A defect stands for itself: it keeps the text and the place of what it found, not the
file. Its signature leaves out the line, so that it can be recognised in another revision.
-/
namespace PhpLint

/-- A token range of a file with what surrounds it. -/
structure FilePosition where
  fileName : String
  line : Nat
  inClass : Option String
  inMethod : Option String
  first : Nat
  last : Nat
  deriving DecidableEq, Repr

/-- The range from one token to another, or of one token alone. -/
def SourceFile.position (file : SourceFile) (first : Nat) (last : Option Nat) : FilePosition where
  fileName := file.name
  line := file.lineAt first
  inClass := (file.classAt first).map (·.name)
  inMethod := (file.functionAt first).bind (·.name)
  first
  last := last.getD first

structure Defect where
  /-- With every byte outside printable ASCII escaped. -/
  tokenText : String
  code : String
  severity : Severity
  message : String
  fileName : String
  line : Nat
  inClass : Option String
  inMethod : Option String
  deriving DecidableEq, Repr, Inhabited

namespace Defect

/-- A byte as itself if it is printable ASCII, else as `\x` and two digits. -/
def escapeByte (b : UInt8) : List Char :=
  if 0x20 ≤ b.toNat && b.toNat < 0x7f then [Char.ofNat b.toNat]
  else ['\\', 'x', Text.hexDigitUpper (b.toNat / 16), Text.hexDigitUpper (b.toNat % 16)]

def escapeText (s : String) : String :=
  String.ofList (s.toUTF8.toList.flatMap escapeByte)

/-- A defect that no token of a file stands for. -/
def detached (fileName : String) (line : Nat) (text code : String) (severity : Severity)
    (message : String) : Defect :=
  ⟨escapeText text, code, severity, message, fileName, line, none, none⟩

/-- A defect of a token. -/
def ofToken (file : SourceFile) (i : Nat) (code : String) (severity : Severity)
    (message : String) : Defect :=
  let position := file.position i none
  { detached position.fileName position.line ((file.tokens[i]?.map (·.text)).getD "") code severity
      message with
    inClass := position.inClass
    inMethod := position.inMethod }

/-- Escaped line feeds, carriage returns and tabs as blanks. -/
def unescapeBlanks : List Char → List Char
  | '\\' :: 'x' :: '0' :: d :: r =>
    if d == 'A' || d == 'D' || d == '9' then ' ' :: unescapeBlanks r
    else '\\' :: 'x' :: '0' :: unescapeBlanks (d :: r)
  | c :: r => c :: unescapeBlanks r
  | [] => []

/-- An escaped text with one blank for every run of white space. -/
def normalizeText (s : String) : String :=
  " ".intercalate ((Text.words (unescapeBlanks s.toList)).map String.ofList)

/-- What makes two defects of one file the same across revisions. -/
structure Signature where
  code : String
  text : String
  inClass : Option String
  inMethod : Option String
  deriving DecidableEq, Repr

def signature (d : Defect) : Signature :=
  ⟨d.code, normalizeText d.tokenText, d.inClass, d.inMethod⟩

/-! ### The form in which defects are kept -/

def toJson (d : Defect) : Json :=
  .obj [("token_text", .str d.tokenText), ("error_code", .str d.code),
    ("severity", .str d.severity.name), ("message", .str d.message),
    ("file_name", .str d.fileName), ("line_number", .nat d.line),
    ("in_class", .opt .str d.inClass), ("in_method", .opt .str d.inMethod)]

def ofRaw? (j : Json.Raw) : Option Defect := do
  let r ← j.record? ["token_text", "error_code", "severity", "message", "file_name", "line_number",
    "in_class", "in_method"]
  return {
    tokenText := ← (← r.lookup "token_text").str?
    code := ← (← r.lookup "error_code").str?
    severity := ← Severity.ofName? (← (← r.lookup "severity").word?)
    message := ← (← r.lookup "message").str?
    fileName := ← (← r.lookup "file_name").str?
    line := ← (← r.lookup "line_number").nat? 32
    inClass := ← ((r.lookup "in_class").getD .null).option? Json.Raw.str?
    inMethod := ← ((r.lookup "in_method").getD .null).option? Json.Raw.str? }

end Defect

/-- The file name of defects that belong to no single file. -/
def projectFileName : String :=
  "(project)"

end PhpLint
