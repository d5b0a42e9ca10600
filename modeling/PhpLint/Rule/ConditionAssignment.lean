import PhpLint.Plugin.Basic

/-! Assignments in conditions. A second pair of parentheses marks one as intended. -/
namespace PhpLint.Rule.ConditionAssignment

/-- Assignments outside inner brackets; `depth` of those are open. -/
def assignments (depth : Nat) : List Token → List Token
  | [] => []
  | t :: ts =>
    if t.isOpenBracket then assignments (depth + 1) ts
    else if t.isCloseBracket then assignments (depth - 1) ts
    else if depth == 0 && t.is "=" then t :: assignments depth ts
    else assignments depth ts

def opensCondition (t : Token) : Bool :=
  t.isKeyword "if" || t.isKeyword "elseif" || t.isKeyword "while"

/-- Assignments in the condition after a keyword. -/
def inCondition (file : SourceFile) (t : Token) : List Token :=
  if !opensCondition t then []
  else
    match (file.nextSignificant t.index).filter (·.is "(") with
    | none => []
    | some opening =>
      match file.pairedBracket opening.index with
      | none => []
      | some closing => assignments 0 (file.tokens.extract (opening.index + 1) closing).toList

def plugin : Plugin :=
  .ofLint "php-lint-assignment-in-condition" "Assignment in condition" {
    codes := [⟨"ac01", .warning,
      "Assignment in a condition; use == for comparison or wrap it in extra parentheses"⟩]
    findings := fun file =>
      .ok ((file.tokens.toList.flatMap (inCondition file)).map fun t => ⟨t.index, "ac01"⟩) }

end PhpLint.Rule.ConditionAssignment
