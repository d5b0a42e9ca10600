import PhpLint.Token.Basic

/-! Pairing of brackets over the three kinds. -/
namespace PhpLint.Bracket

/-- Why the brackets of a file do not pair. -/
inductive Mismatch where
  /-- A closing bracket with nothing open. -/
  | unmatched (closing : Token)
  /-- A closing bracket of another kind than the innermost open one. -/
  | mismatched (closing opening : Token)
  | unclosed (opening : Token)
  deriving DecidableEq, Repr

/-- The token that is to blame. -/
def Mismatch.token : Mismatch → Token
  | .unmatched t | .mismatched t _ | .unclosed t => t

def Mismatch.message : Mismatch → String
  | .unmatched t => s!"unmatched '{t.text}' on line {t.line}"
  | .mismatched t opening =>
    let expected := (Token.closingBracket opening.text).getD ""
    s!"mismatched '{t.text}' on line {t.line}, expected '{expected}' to close line {opening.line}"
  | .unclosed t => s!"unclosed '{t.text}' opened on line {t.line}"

/-- Pairs of an opening and a closing bracket, by the closing one; `stack` is open already. -/
def pairsFrom : List Token → List Token → Except Mismatch (List (Nat × Nat))
  | [], [] => .ok []
  | opening :: _, [] => .error (.unclosed opening)
  | stack, t :: ts =>
    if t.isOpenBracket then pairsFrom (t :: stack) ts
    else if t.isCloseBracket then
      match stack with
      | [] => .error (.unmatched t)
      | opening :: stack =>
        if Token.closingBracket opening.text == some t.text then do
          let rest ← pairsFrom stack ts
          return (opening.index, t.index) :: rest
        else .error (.mismatched t opening)
    else pairsFrom stack ts

/-- The bracket pairs of a token list. -/
def pairs (tokens : List Token) : Except Mismatch (List (Nat × Nat)) :=
  pairsFrom [] tokens

/-- For each token of a file the bracket it pairs with. -/
def table (size : Nat) (pairs : List (Nat × Nat)) : Array (Option Nat) :=
  pairs.foldl (fun a (i, j) => (a.setIfInBounds i (some j)).setIfInBounds j (some i))
    (Array.replicate size none)

end PhpLint.Bracket
