/-! White space of every script. -/
namespace PhpLint.Text

/-- Ranges of the characters that count as white space. -/
def whiteSpaceRanges : List (Nat × Nat) :=
  [(0x09, 0x0d), (0x20, 0x20), (0x85, 0x85), (0xa0, 0xa0), (0x1680, 0x1680), (0x2000, 0x200a),
    (0x2028, 0x2029), (0x202f, 0x202f), (0x205f, 0x205f), (0x3000, 0x3000)]

def isWhiteSpace (c : Char) : Bool :=
  whiteSpaceRanges.any fun (first, last) => first ≤ c.toNat && c.toNat ≤ last

/-- The characters without those at both ends that satisfy `p`. -/
def trimBy (p : Char → Bool) (s : List Char) : List Char :=
  (((s.dropWhile p).reverse.dropWhile p)).reverse

/-- The text without white space at both ends. -/
def trim (s : String) : String :=
  String.ofList (trimBy isWhiteSpace s.toList)

/-- Puts a word in front unless it is empty. -/
def consWord (word : List Char) (rest : List (List Char)) : List (List Char) :=
  if word.isEmpty then rest else word :: rest

/-- The word in progress at the front, and the words after it. -/
def leadingWord : List Char → List Char × List (List Char)
  | [] => ([], [])
  | c :: r =>
    let (word, rest) := leadingWord r
    if isWhiteSpace c then ([], consWord word rest) else (c :: word, rest)

/-- The longest pieces of a text that hold no white space. -/
def words (s : List Char) : List (List Char) :=
  let (word, rest) := leadingWord s
  consWord word rest

end PhpLint.Text
