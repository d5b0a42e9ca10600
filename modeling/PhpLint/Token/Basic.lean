import PhpLint.Text.Ascii

/-! Typed fragments of source text. -/
namespace PhpLint

/-- Lexical category of a token. -/
inductive Token.Kind where
  | whitespace
  | comment
  | docComment
  /-- Text outside the code blocks. -/
  | inlineHtml
  | openTag
  | openTagWithEcho
  | closeTag
  | variable
  /-- An identifier that is no reserved word, or one used as a member name. -/
  | name
  | keyword
  | nsSeparator
  | number
  /-- A quoted text, kept whole. -/
  | string
  | heredoc
  | cast
  /-- Punctuation of two or three characters. -/
  | operator
  /-- One character of punctuation, brackets included. -/
  | punct
  deriving DecidableEq, Repr, Inhabited

/-- A fragment of source text with its place in the file. -/
structure Token where
  kind : Token.Kind
  text : String
  /-- Line on which the token starts, from 1. -/
  line : Nat
  /-- Position in the file's token array. -/
  index : Nat
  deriving DecidableEq, Repr, Inhabited

namespace Token

/-- White space and comments carry no syntax. -/
def isSpace (t : Token) : Bool :=
  t.kind == .whitespace || t.kind == .comment || t.kind == .docComment

/-- Exact match of punctuation. -/
def is (t : Token) (text : String) : Bool :=
  (t.kind == .punct || t.kind == .operator) && t.text == text

/-- Match of a reserved word, in any case. -/
def isKeyword (t : Token) (word : String) : Bool :=
  t.kind == .keyword && Text.sameFold t.text word

/-- Match of a reserved word or identifier, in any case. -/
def isWord (t : Token) (word : String) : Bool :=
  (t.kind == .keyword || t.kind == .name) && Text.sameFold t.text word

/-- Reserved words and identifiers. -/
def isIdentifier (t : Token) : Bool :=
  t.kind == .keyword || t.kind == .name

def isOpenBracket (t : Token) : Bool :=
  t.kind == .punct && (t.text == "(" || t.text == "[" || t.text == "\x7b")

def isCloseBracket (t : Token) : Bool :=
  t.kind == .punct && (t.text == ")" || t.text == "]" || t.text == "\x7d")

/-- A semicolon or a close tag ends a statement. -/
def isTerminator (t : Token) : Bool :=
  t.is ";" || t.kind == .closeTag

/-- The closing bracket that belongs to an opening one. -/
def closingBracket (opening : String) : Option String :=
  if opening == "(" then some ")"
  else if opening == "[" then some "]"
  else if opening == "\x7b" then some "\x7d"
  else none

end Token

end PhpLint
