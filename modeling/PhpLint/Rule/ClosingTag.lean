import PhpLint.Plugin.Basic

/-! The close tag at the end of a file that holds nothing but code. -/
namespace PhpLint.Rule.ClosingTag

/-- Text outside code that is white space only. -/
def isBlankText (t : Token) : Bool :=
  t.kind == .inlineHtml && t.text.toList.all Text.isWhiteSpace

def isMarkup (t : Token) : Bool :=
  t.kind == .inlineHtml && !t.text.toList.all Text.isWhiteSpace

/-- The last close tag, if nothing but blanks follows it, in a file without markup. -/
def offending? (tokens : List Token) : Option Token :=
  let after := tokens.reverse.takeWhile (·.kind != .closeTag)
  if after.all isBlankText && !tokens.any isMarkup then
    tokens.reverse.find? (·.kind == .closeTag)
  else none

def plugin : Plugin :=
  .ofLint "php-lint-closing-tag" "Trailing closing tag" {
    codes := [⟨"ct01", .notice,
      "File ends with a closing tag; omit it to avoid sending trailing whitespace"⟩]
    findings := fun file =>
      .ok ((offending? file.tokens.toList).toList.map fun t => ⟨t.index, "ct01"⟩) }

end PhpLint.Rule.ClosingTag
