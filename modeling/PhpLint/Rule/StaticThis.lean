import PhpLint.Plugin.Basic

/-! The object variable inside static methods. -/
namespace PhpLint.Rule.StaticThis

/-- Closures and classes inside the method bind an object of their own. -/
def isOffending (file : SourceFile) (method : Function) (t : Token) : Bool :=
  t.kind == .variable && t.text == "$this"
    && (file.functionAt t.index).any (·.index == method.index)

/-- Tokens of a static method's body that use the object. -/
def inMethod (file : SourceFile) (method : Function) : List Token :=
  match method.bodyStarts with
  | some start =>
    if method.isMethod && method.attributes.static then
      (file.tokens.extract start (method.bodyEnds + 1)).toList.filter (isOffending file method)
    else []
  | none => []

def plugin : Plugin :=
  .ofLint "php-lint-static-this" "$this in static context" {
    codes := [⟨"st01", .error, "$this is used in a static method"⟩]
    findings := fun file =>
      .ok ((file.functions.toList.flatMap (inMethod file)).map fun t => ⟨t.index, "st01"⟩) }

end PhpLint.Rule.StaticThis
