import PhpLint.Text.Quoted
import PhpLint.Text.Utf8
import PhpLint.Token.Scan

/-!
Cutting a file into tokens. The texts of the tokens, put together, are the file; each token knows
its position and line, and a failure names the byte and line at which it starts.
-/
namespace PhpLint.Token

/-- Why a file cannot be cut into tokens. -/
inductive Fault where
  | invalidUtf8 (offset line : Nat)
  | unterminated (what : Construct) (offset line : Nat)
  | unexpected (char : Char) (offset line : Nat)
  deriving DecidableEq, Repr

def Fault.offset : Fault → Nat
  | .invalidUtf8 offset _ | .unterminated _ offset _ | .unexpected _ offset _ => offset

def Fault.line : Fault → Nat
  | .invalidUtf8 _ line | .unterminated _ _ line | .unexpected _ _ line => line

def Construct.describe : Construct → String
  | .comment => "comment"
  | .string => "string"
  | .interpolation => "string interpolation"
  | .heredocLabel => "heredoc label"
  | .heredoc => "heredoc"

/-- A control character between quotes: NUL as `\0`, the others by their hexadecimal number. -/
def quoteControl (c : Char) : String :=
  "'" ++ (if c == '\x00' then "\\0" else Text.escapeNumber c) ++ "'"

def Fault.message : Fault → String
  | .invalidUtf8 offset _ => s!"invalid UTF-8 sequence at byte {offset}"
  | .unterminated what _ line => s!"unterminated {what.describe} starting on line {line}"
  | .unexpected char _ line => s!"unexpected character {quoteControl char} on line {line}"

def Obstacle.located (offset line : Nat) : Obstacle → Fault
  | .unterminated what => .unterminated what offset line
  | .unexpected char => .unexpected char offset line

/-- A word after these tokens names a member or a declaration and is never reserved. -/
def takesMemberName (t : Token) : Bool :=
  t.is "->" || t.is "?->" || t.is "::" || t.isKeyword "function" || t.isKeyword "const"

/-- Where the next token starts and what decides how it is read. -/
structure Position where
  index : Nat
  line : Nat
  /-- Bytes before the token. -/
  offset : Nat
  inCode : Bool
  /-- The last token with syntax asks for a name. -/
  member : Bool
  deriving Repr

def Position.start : Position :=
  ⟨0, 1, 0, false, false⟩

/-- The position after a token. -/
def Position.after (p : Position) (t : Token) : Position where
  index := p.index + 1
  line := p.line + Text.lineFeeds t.text
  offset := p.offset + t.text.utf8ByteSize
  inCode := match t.kind with
    | .openTag | .openTagWithEcho => true
    | .closeTag => false
    | _ => p.inCode
  member := if t.isSpace then p.member else takesMemberName t

/-- The kind and extent of the token at a position. -/
def Position.scan (p : Position) (c : Char) (r : List Char) : Except Obstacle Extent :=
  if p.inCode then scanCode p.member c r else .ok (scanText c r)

/-- The tokens of the text that starts at a position. -/
def tokensFrom (p : Position) : List Char → Except Fault (List Token)
  | [] => .ok []
  | c :: r =>
    match p.scan c r with
    | .error e => .error (e.located p.offset p.line)
    | .ok (kind, n) => do
      let t : Token := ⟨kind, String.ofList (c :: r.take n), p.line, p.index⟩
      let ts ← tokensFrom (p.after t) (r.drop n)
      return t :: ts
termination_by s => s.length
decreasing_by simp only [List.length_drop, List.length_cons]; omega

/-- The tokens of a file's content. -/
def ofContent (content : ByteArray) : Except Fault (List Token) :=
  match Text.decode content with
  | .ok s => tokensFrom .start s.toList
  | .error offset =>
    let newlines := (content.extract 0 offset).data.count 10
    .error (.invalidUtf8 offset (1 + newlines))

end PhpLint.Token
