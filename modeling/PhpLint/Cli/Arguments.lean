import PhpLint.Config.Settings
import PhpLint.Report.Render

/-! The command line: global options, a command, and what belongs to the command. -/
namespace PhpLint.Cli

/-- Why a command line means nothing. -/
inductive UsageError where
  | missingCommand
  | unexpected (argument : String)
  | missingValue (option : String)
  | unwantedValue (option : String)
  | invalidValue (option value : String)
  | repeated (option : String)
  | conflict (option other : String)
  deriving DecidableEq, Repr

def UsageError.message : UsageError → String
  | .missingCommand => "a command is required: lint, init, errors or doc"
  | .unexpected argument => s!"unexpected argument '{argument}'"
  | .missingValue option => s!"a value is required for '--{option}'"
  | .unwantedValue option => s!"no value is allowed for '--{option}'"
  | .invalidValue option value => s!"invalid value '{value}' for '--{option}'"
  | .repeated option => s!"'--{option}' cannot be used multiple times"
  | .conflict option other => s!"'--{option}' cannot be used with '--{other}'"

/-- A command line ends without a command, or asks for nothing but information. -/
inductive Stop where
  | usage (error : UsageError)
  | help
  | version
  deriving DecidableEq, Repr

/-! ### Options -/

/-- An option by its long name. -/
structure OptionSpec where
  name : String
  short : Option Char
  /-- Which values it takes; one without this is a flag. -/
  values : Option (String → Bool)
  repeatable : Bool

namespace OptionSpec

def flag (name : String) (short : Option Char) : OptionSpec :=
  ⟨name, short, none, false⟩

/-- An option with a value that satisfies a condition. -/
def valued (name : String) (short : Option Char) (valid : String → Bool) : OptionSpec :=
  ⟨name, short, some valid, false⟩

end OptionSpec

/-- The options and other words of one part of a command line. -/
structure Part where
  /-- Names and values in their order; a flag has an empty value. -/
  options : List (String × String)
  words : List String
  deriving Repr

namespace Part

def empty : Part :=
  ⟨[], []⟩

def has (p : Part) (name : String) : Bool :=
  p.options.any (·.1 == name)

def value? (p : Part) (name : String) : Option String :=
  p.options.lookup name

def values (p : Part) (name : String) : List String :=
  (p.options.filter (·.1 == name)).map (·.2)

/-- Adds an option; only some may come more than once. -/
def addOption (p : Part) (spec : OptionSpec) (value : String) : Except Stop Part :=
  if !(spec.values.all (· value)) then .error (.usage (.invalidValue spec.name value))
  else if p.has spec.name && !spec.repeatable then .error (.usage (.repeated spec.name))
  else .ok { p with options := p.options ++ [(spec.name, value)] }

end Part

/-- What a part of a command line may hold. -/
structure Grammar where
  options : List OptionSpec
  /-- The words that it may hold. -/
  accepts : String → Bool
  /-- The part ends in front of the first word. -/
  endsAtWord : Bool

namespace Grammar

/-- Whether an argument looks like an option. -/
def isOption (argument : String) : Bool :=
  argument.toList.head? == some '-' && argument != "-"

/-- What an option asks for that is not in the grammar: information, or nothing. -/
def unknown (g : Grammar) (name argument : String) : Stop :=
  if name == "help" then .help
  else if g.endsAtWord && name == "version" then .version
  else .usage (.unexpected argument)

/-- The long name of a short option that asks for information. -/
def informationName (short : Char) : String :=
  match short with
  | 'h' => "help"
  | 'V' => "version"
  | _ => ""

/-- Adds an option whose value is the next argument; also answers how many arguments that takes. -/
def addWithNext (p : Part) (spec : OptionSpec) (rest : List String) : Except Stop (Part × Nat) :=
  match rest with
  | [] => .error (.usage (.missingValue spec.name))
  | value :: _ =>
    if isOption value then .error (.usage (.missingValue spec.name))
    else (p.addOption spec value).map (·, 1)

/-- Reads a long option. -/
def readLong (g : Grammar) (p : Part) (argument : String) (rest : List String) :
    Except Stop (Part × Nat) :=
  let s := argument.toList.drop 2
  let name := String.ofList (s.takeWhile (· != '='))
  let value := match s.dropWhile (· != '=') with
    | [] => none
    | _ :: value => some (String.ofList value)
  match g.options.find? (·.name == name) with
  | none => .error (if value.isSome then .usage (.unexpected argument) else g.unknown name argument)
  | some spec =>
    match spec.values, value with
    | none, none => (p.addOption spec "").map (·, 0)
    | none, some _ => .error (.usage (.unwantedValue name))
    | some _, some value => (p.addOption spec value).map (·, 0)
    | some _, none => addWithNext p spec rest

/-- Reads short options that share a hyphen. -/
def readShort (g : Grammar) (p : Part) (argument : String) (rest : List String) :
    List Char → Except Stop (Part × Nat)
  | [] => .ok (p, 0)
  | c :: cs =>
    match g.options.find? (·.short == some c) with
    | none => .error (g.unknown (informationName c) argument)
    | some spec =>
      match spec.values, cs with
      | none, cs => do
        let p ← p.addOption spec ""
        g.readShort p argument rest cs
      | some _, [] => addWithNext p spec rest
      | some _, '=' :: value => (p.addOption spec (String.ofList value)).map (·, 0)
      | some _, value => (p.addOption spec (String.ofList value)).map (·, 0)

/-- Adds words, up to the first that does not belong here. -/
def addWords (g : Grammar) (p : Part) (words : List String) : Except Stop Part :=
  match words.find? (!g.accepts ·) with
  | some word => .error (.usage (.unexpected word))
  | none => .ok { p with words := p.words ++ words }

/--
Reads a part of a command line; answers also what comes after it. The first argument that is wrong
or asks for information decides, whatever follows.
-/
def read (g : Grammar) (p : Part) : List String → Except Stop (Part × List String)
  | [] => .ok (p, [])
  | argument :: rest =>
    if argument == "--" then (g.addWords p rest).map (·, [])
    else if isOption argument then
      let found := if "--".isPrefixOf argument then g.readLong p argument rest
        else g.readShort p argument rest (argument.toList.drop 1)
      match found with
      | .error stop => .error stop
      | .ok (p, n) => g.read p (rest.drop n)
    else if g.endsAtWord then .ok (p, argument :: rest)
    else
      match g.addWords p [argument] with
      | .error stop => .error stop
      | .ok p => g.read p rest
termination_by arguments => arguments.length
decreasing_by all_goals simp only [List.length_drop, List.length_cons]; omega

end Grammar

/-! ### Commands -/

/-- Options of every command. -/
structure GlobalOptions where
  config : Option String
  defines : List (String × String)
  deriving DecidableEq, Repr

inductive Command where
  /-- At most one of the ways to name revisions is given. -/
  | lint (paths : List String) (output : OutputFormat) (reportLevel : Option String)
      (useCache : Bool) (git gitCached : Bool) (gitRev : Option String) (verbose : Bool)
  | init
  | errors (output : OutputFormat)
  | doc (outputDir : Option String)
  deriving DecidableEq, Repr

def OutputFormat.ofName? (name : String) : Option OutputFormat :=
  match name with
  | "text" => some .text
  | "json" => some .json
  | _ => none

def anyText (_ : String) : Bool :=
  true

def logLevels : List String :=
  ["trace", "debug", "info", "warn", "error"]

def globalSpecs : List OptionSpec :=
  [.valued "config" none anyText,
    { OptionSpec.valued "define" (some 'd') (fun s => (parseDefine s).isOk) with
      repeatable := true },
    .valued "log-level" none logLevels.contains]

def outputSpec : OptionSpec :=
  .valued "output" (some 'o') fun s => (OutputFormat.ofName? s).isSome

def lintSpecs : List OptionSpec :=
  [outputSpec, .valued "report-level" (some 'r') anyText, .flag "no-cache" none, .flag "git" none,
    .flag "git-cached" none, .valued "git-rev" none anyText, .flag "verbose" (some 'v')]

def docSpecs : List OptionSpec :=
  [.valued "output-dir" none (!·.isEmpty)]

/-- The output that a part asks for. -/
def outputOf (p : Part) : OutputFormat :=
  ((p.value? "output").bind OutputFormat.ofName?).getD .text

/-- A conflict between options. -/
def conflict? (p : Part) : Option UsageError :=
  let pairs := [("git", "git-cached"), ("git", "git-rev"), ("git-cached", "git-rev")]
  (pairs.find? fun (a, b) => p.has a && p.has b).map fun (a, b) => .conflict a b

/-- No words. -/
def noWords (_ : String) : Bool :=
  false

/-- What comes in front of the name of a command. -/
def frontGrammar : Grammar :=
  ⟨globalSpecs, noWords, true⟩

/-- What may follow the name of a command; only `lint` takes words, which are paths. -/
def grammarOf? (name : String) : Option Grammar :=
  match name with
  | "lint" => some ⟨globalSpecs ++ lintSpecs, (!·.isEmpty), false⟩
  | "init" => some ⟨globalSpecs, noWords, false⟩
  | "errors" => some ⟨globalSpecs ++ [outputSpec], noWords, false⟩
  | "doc" => some ⟨globalSpecs ++ docSpecs, noWords, false⟩
  | _ => none

/-- The command that a name and what follows it stand for. -/
def commandOf (name : String) (p : Part) : Except Stop Command :=
  match name, conflict? p with
  | _, some e => .error (.usage e)
  | "lint", none =>
    .ok (.lint p.words (outputOf p) (p.value? "report-level") (!p.has "no-cache") (p.has "git")
      (p.has "git-cached") (p.value? "git-rev") (p.has "verbose"))
  | "init", none => .ok .init
  | "errors", none => .ok (.errors (outputOf p))
  | _, none => .ok (.doc (p.value? "output-dir"))

/-- What `help` with further words answers: at most one command can be named. -/
def helpStop (words : List String) : Stop :=
  match words with
  | [] => .help
  | [name] =>
    if name == "help" || (grammarOf? name).isSome then .help else .usage (.unexpected name)
  | _ :: word :: _ => .usage (.unexpected word)

/-- The values of a global option: those behind the command, else those in front of it. -/
def globalValues (front behind : Part) (name : String) : List String :=
  if behind.has name then behind.values name else front.values name

/-- What a command line asks for. -/
def parseArguments (arguments : List String) : Except Stop (GlobalOptions × Command) := do
  let (front, rest) ← frontGrammar.read .empty arguments
  match rest with
  | [] => .error (.usage .missingCommand)
  | name :: rest =>
    match grammarOf? name with
    | none => .error (if name == "help" then helpStop rest else .usage (.unexpected name))
    | some grammar =>
      let (behind, _) ← grammar.read .empty rest
      let command ← commandOf name behind
      let defines := (globalValues front behind "define").filterMap fun s => (parseDefine s).toOption
      return (⟨(globalValues front behind "config").head?, defines⟩, command)

end PhpLint.Cli
