/-! ASCII classes and case folding of text; every character outside ASCII is left alone. -/
namespace PhpLint.Text

/-- ASCII letters in lower case. -/
def fold (s : String) : String :=
  String.ofList (s.toList.map Char.toLower)

/-- Equality up to the case of ASCII letters. -/
def sameFold (a b : String) : Bool :=
  fold a == fold b

/-- Space, tab, line feed, form feed and carriage return. -/
def isBlank (c : Char) : Bool :=
  c == ' ' || c == '\t' || c == '\n' || c == '\x0c' || c == '\r'

/-- Blanks that do not end a line. -/
def isTabOrSpace (c : Char) : Bool :=
  c == ' ' || c == '\t'

def isHexDigit (c : Char) : Bool :=
  c.isDigit || ('a' ≤ c && c ≤ 'f') || ('A' ≤ c && c ≤ 'F')

/-- Number of line feeds. -/
def lineFeeds (s : String) : Nat :=
  s.toList.count '\n'

/-- The text without the separators in front. -/
def dropLeading (c : Char) (s : String) : String :=
  String.ofList (s.toList.dropWhile (· == c))

/-- Texts between the occurrences of a character; never empty. -/
def splitAt (c : Char) : List Char → List (List Char)
  | [] => [[]]
  | d :: r =>
    if d == c then [] :: splitAt c r
    else match splitAt c r with
      | [] => [[d]]
      | w :: ws => (d :: w) :: ws

end PhpLint.Text
