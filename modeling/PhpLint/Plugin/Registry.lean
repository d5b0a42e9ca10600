import PhpLint.Config.Error
import PhpLint.Digest.Sha256
import PhpLint.Files.Path
import PhpLint.Plugin.Basic
import PhpLint.Text.Quoted

/-! The parsers and plugins of a run. Parsers are found by file extension. -/
namespace PhpLint

structure Registry where
  /-- The parser of each extension. -/
  parsers : Dict Parser
  /-- In the order of registration. -/
  plugins : List Plugin

/-- Code of a file that cannot be parsed. -/
def unparseableCode : String :=
  "xr001"

/-- Code of a plugin that failed. -/
def pluginFailedCode : String :=
  "xr002"

/-- The codes that no plugin reports. -/
def engineCodes : List ErrorDescription :=
  [⟨unparseableCode, .fatal, "Can't parse file"⟩,
    ⟨pluginFailedCode, .fatal, "Plugin failed"⟩,
    ⟨duplicateClassCode, .error, "Class is declared more than once in the project"⟩]

namespace Registry

def empty : Registry :=
  ⟨[], []⟩

/-- Extensions in lower case, without points in front. -/
def normalizeExtension (extension : String) : String :=
  Text.fold (Text.dropLeading '.' extension)

/-- The first extension that is taken or comes twice. -/
def clash? (taken : List String) : List String → Option String
  | [] => none
  | e :: es => if taken.contains e then some e else clash? (e :: taken) es

/-- Registers a parser for all its extensions, or for none of them. -/
def addParser (r : Registry) (parser : Parser) : Except ConfigError Registry :=
  let extensions := parser.extensions.map normalizeExtension
  match clash? r.parsers.keys extensions with
  | some e => .error (.duplicateParserExtension e)
  | none => .ok { r with parsers := extensions.foldl (·.insert · parser) r.parsers }

def plugin? (r : Registry) (id : String) : Option Plugin :=
  r.plugins.find? (·.id == id)

/-- Registers a plugin under an id of its own. -/
def addPlugin (r : Registry) (plugin : Plugin) : Except ConfigError Registry :=
  if (r.plugin? plugin.id).isSome then .error (.duplicatePluginId plugin.id)
  else .ok { r with plugins := r.plugins ++ [plugin] }

/-- Registers plugins one after the other, up to the first that cannot be registered. -/
def addPlugins (r : Registry) : List Plugin → Registry × Option ConfigError
  | [] => (r, none)
  | p :: ps =>
    match r.addPlugin p with
    | .ok r => r.addPlugins ps
    | .error e => (r, some e)

def ids (r : Registry) : List String :=
  r.plugins.map (·.id)

/-- The plugins with a capability. -/
def implementing (r : Registry) (capability : Capability) : List Plugin :=
  r.plugins.filter (·.has capability)

/-- The file lints with the ids of their plugins. -/
def lints (r : Registry) : List (String × FileLint) :=
  r.plugins.filterMap fun p => p.lint.map (p.id, ·)

def projectLints (r : Registry) : List (String × ProjectLint) :=
  r.plugins.filterMap fun p => p.projectLint.map (p.id, ·)

def documentations (r : Registry) : List (String × Documentation) :=
  r.plugins.filterMap fun p => p.documentation.map (p.id, ·)

/-- The parser for a file. -/
def parserFor? (r : Registry) (fileName : String) : Option Parser :=
  (Path.extension? fileName).bind fun e => r.parsers.get? (normalizeExtension e)

def canParse (r : Registry) (fileName : String) : Bool :=
  (r.parserFor? fileName).isSome

def parse (r : Registry) (fileName : String) (content : ByteArray) :
    Except ParserFailure SourceFile :=
  match r.parserFor? fileName with
  | some parser => parser.parse fileName content
  | none => .error (.error ⟨s!"no parser registered for '{fileName}'", 0, none⟩)

/-- Every code that a run can report. -/
def errorMap (r : Registry) : Dict ErrorDescription :=
  let all := engineCodes ++ r.lints.flatMap (·.2.codes) ++ r.projectLints.flatMap (·.2.codes)
  .ofList (all.map fun e => (e.code, e))

/-- What a plugin contributes to the identity of the registry. -/
def pluginBytes (p : Plugin) : List UInt8 :=
  let tags := String.join (p.capabilities.map Capability.tag)
  p.id.toUTF8.toList ++ 0 :: p.version.toUTF8.toList ++ 0 :: tags.toUTF8.toList ++ [0xff]

/-- Identity of the registered plugins. -/
def fingerprint (r : Registry) : String :=
  Sha256.hexDigest (r.plugins.flatMap pluginBytes)

/-- What is registered, for people who look for a mistake. -/
def describe (r : Registry) : String :=
  let list (names : List String) : String := "[" ++ ", ".intercalate (names.map Text.quoted) ++ "]"
  "PluginRegistry \x7b extensions: " ++ list r.parsers.keys ++ ", plugins: " ++ list r.ids ++ " \x7d"

end Registry

end PhpLint
