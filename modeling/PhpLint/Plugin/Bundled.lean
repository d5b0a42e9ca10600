import PhpLint.Document.DeclarationIndex
import PhpLint.Plugin.Registry
import PhpLint.Rule.ClosingTag
import PhpLint.Rule.ConditionAssignment
import PhpLint.Rule.LiteralCase
import PhpLint.Rule.MissingClass
import PhpLint.Rule.ParentConstructor
import PhpLint.Rule.StaticThis
import PhpLint.Rule.UnusedVariable

/-! The parser and the plugins that come with the library. -/
namespace PhpLint

/-- The parser of the language. -/
def Parser.php : Parser where
  extensions := ["php"]
  parse := fun fileName content => (SourceFile.parse fileName content).mapError .error

/-- All plugins; classes of the given names are never missing. -/
def bundledPlugins (ignoredClasses : List String) : List Plugin :=
  [Rule.LiteralCase.plugin, Rule.StaticThis.plugin, Rule.ConditionAssignment.plugin,
    Rule.ClosingTag.plugin, Rule.UnusedVariable.plugin, Rule.MissingClass.plugin ignoredClasses,
    Rule.ParentConstructor.plugin, DeclarationIndex.plugin]

/-- Registers what comes with the library, up to the first part that cannot be registered. -/
def Registry.addBundled (r : Registry) (ignoredClasses : List String) :
    Registry × Option ConfigError :=
  match r.addParser .php with
  | .ok r => r.addPlugins (bundledPlugins ignoredClasses)
  | .error e => (r, some e)

end PhpLint
