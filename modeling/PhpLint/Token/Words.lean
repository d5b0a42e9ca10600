import PhpLint.Text.Ascii

/-! Words with a fixed meaning in the language. -/
namespace PhpLint.Token

def reservedWords : List String :=
  ["abstract", "and", "array", "as", "break", "callable", "case", "catch", "class", "clone",
    "const", "continue", "declare", "default", "do", "echo", "else", "elseif", "empty",
    "enddeclare", "endfor", "endforeach", "endif", "endswitch", "endwhile", "extends", "final",
    "finally", "fn", "for", "foreach", "function", "global", "goto", "if", "implements",
    "include", "include_once", "instanceof", "insteadof", "interface", "isset", "list", "match",
    "namespace", "new", "or", "print", "private", "protected", "public", "readonly", "require",
    "require_once", "return", "static", "switch", "throw", "trait", "try", "unset", "use", "var",
    "while", "xor", "yield"]

/-- Type names that never name a class. -/
def builtinTypes : List String :=
  ["array", "bool", "boolean", "callable", "double", "false", "float", "int", "integer",
    "iterable", "mixed", "never", "null", "object", "parent", "self", "static", "string", "true",
    "void"]

/-- Words that make a cast when they stand alone in parentheses. -/
def castTypes : List String :=
  ["int", "integer", "bool", "boolean", "float", "double", "real", "string", "binary", "array",
    "object", "unset"]

def isReservedWord (word : String) : Bool :=
  reservedWords.contains (Text.fold word)

def isBuiltinType (word : String) : Bool :=
  builtinTypes.contains (Text.fold word)

def isCastType (word : String) : Bool :=
  castTypes.contains (Text.fold word)

end PhpLint.Token
