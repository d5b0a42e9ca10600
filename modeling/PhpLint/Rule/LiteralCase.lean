import PhpLint.Plugin.Basic

/-! Literals in lower case. -/
namespace PhpLint.Rule.LiteralCase

/-- Whether a token is a member or part of a qualified name, and so no literal. -/
def isMember (file : SourceFile) (i : Nat) : Bool :=
  (file.prevSignificant i).any fun t =>
    t.is "->" || t.is "?->" || t.is "::" || t.kind == .nsSeparator

/-- A literal with a capital letter. -/
def isOffending (file : SourceFile) (t : Token) : Bool :=
  let lower := Text.fold t.text
  t.kind == .name && ["true", "false", "null"].contains lower && t.text != lower
    && !isMember file t.index

def plugin : Plugin :=
  .ofLint "php-lint-literals" "Lower-case literals" {
    codes := [⟨"lc01", .notice, "true, false and null should be written in lower case"⟩]
    findings := fun file =>
      .ok ((file.tokens.toList.filter (isOffending file)).map fun t => ⟨t.index, "lc01"⟩) }

end PhpLint.Rule.LiteralCase
