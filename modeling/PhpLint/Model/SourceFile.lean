import PhpLint.Model.Outline
import PhpLint.Token.Stream

/-!
A file with its tokens and what it declares. For each token the innermost class and function
around it are kept in tables.
-/
namespace PhpLint

/-- Why a file cannot be read. -/
structure ParseError where
  message : String
  line : Nat
  /-- The byte at which reading failed, if known. -/
  offset : Option Nat
  deriving DecidableEq, Repr, Inhabited

def Token.Fault.toParseError (e : Token.Fault) : ParseError :=
  ⟨e.message, e.line, some e.offset⟩

def Bracket.Mismatch.toParseError (e : Bracket.Mismatch) : ParseError :=
  ⟨e.message, e.token.line, none⟩

/-- Positions from `first` to `last` in a table take the value `id`. -/
def fillRange (table : Array (Option Nat)) (id first last : Nat) : Array (Option Nat) :=
  (List.range' first (last + 1 - first)).foldl (fun t i => t.setIfInBounds i (some id)) table

/--
For each token the innermost of some extents around it. An extent inside another starts later, so
the extents are laid down in the order of their starts.
-/
def ownerTable (size : Nat) (extents : List (Nat × Nat)) : Array (Option Nat) :=
  let byStart := extents.zipIdx.mergeSort fun a b => a.1.1 ≤ b.1.1
  byStart.foldl (fun table ((first, last), id) => fillRange table id first (min last (size - 1)))
    (Array.replicate size none)

/-- A file that has been read. -/
structure SourceFile where
  name : String
  tokens : Array Token
  /-- For each bracket token the one it pairs with. -/
  brackets : Array (Option Nat)
  /-- In the order of the file; never empty. -/
  namespaces : List Namespace
  classes : Array Class
  functions : Array Function
  /-- Constants outside classes. -/
  constants : List Constant
  classOwner : Array (Option Nat)
  functionOwner : Array (Option Nat)
  deriving Repr, Inhabited

namespace SourceFile

/-- One record of global code over a whole file. -/
def wholeFile (size : Nat) : Namespace :=
  { Namespace.globalFrom 0 with bodyEnds := some (size - 1) }

def ofOutline (name : String) (tokens : List Token) (outline : Outline) : SourceFile :=
  let size := tokens.length
  let namespaces := if outline.namespaces.isEmpty then [wholeFile size] else outline.namespaces
  { name
    tokens := tokens.toArray
    brackets := outline.brackets
    namespaces := namespaces.mergeSort fun a b => a.index ≤ b.index
    classes := outline.classes
    functions := outline.functions
    constants := outline.constants
    classOwner := ownerTable size (outline.classes.toList.map fun c => (c.index, c.bodyEnds))
    functionOwner := ownerTable size (outline.functions.toList.map fun f => (f.index, f.bodyEnds)) }

/-- Reads a file of the language. -/
def parse (name : String) (content : ByteArray) : Except ParseError SourceFile := do
  let tokens ← (Token.ofContent content).mapError Token.Fault.toParseError
  let outline ← (Outline.ofTokens tokens).mapError Bracket.Mismatch.toParseError
  return ofOutline name tokens outline

/-- The first token from position `i` on that carries syntax. -/
def significantFrom (file : SourceFile) (i : Nat) : Option Token :=
  if h : i < file.tokens.size then
    let t := file.tokens[i]
    if t.isSpace then file.significantFrom (i + 1) else some t
  else none
termination_by file.tokens.size - i

/-- The first token after position `i` that carries syntax. -/
def nextSignificant (file : SourceFile) (i : Nat) : Option Token :=
  file.significantFrom (i + 1)

/-- The last of the first `n` tokens that carries syntax. -/
def significantBelow (file : SourceFile) : Nat → Option Token
  | 0 => none
  | n + 1 =>
    match file.tokens[n]? with
    | some t => if t.isSpace then file.significantBelow n else some t
    | none => file.significantBelow n

/-- The last token before position `i` that carries syntax. -/
def prevSignificant (file : SourceFile) (i : Nat) : Option Token :=
  file.significantBelow (min i file.tokens.size)

/-- The bracket that pairs with the one at position `i`. -/
def pairedBracket (file : SourceFile) (i : Nat) : Option Nat :=
  file.brackets[i]?.join

/-- The line of a token; 0 outside the file. -/
def lineAt (file : SourceFile) (i : Nat) : Nat :=
  (file.tokens[i]?.map (·.line)).getD 0

def lineCount (file : SourceFile) : Nat :=
  match file.tokens.back? with
  | some t => t.line + Text.lineFeeds t.text
  | none => 0

/-- First tokens of the elements of a list that starts at token `start`. -/
def listElements (file : SourceFile) (start : Nat) (separator terminator : String) : List Nat :=
  (Token.listElements separator terminator (file.tokens.toList.drop start)).map (·.index)

/-- The methods of a class, in their order. -/
def methodsOf (file : SourceFile) (c : Class) : List Function :=
  c.methods.filterMap (file.functions[·]?)

/-- The innermost class around a token. -/
def classAt (file : SourceFile) (i : Nat) : Option Class :=
  file.classOwner[i]?.join.bind (file.classes[·]?)

/-- The innermost function around a token. -/
def functionAt (file : SourceFile) (i : Nat) : Option Function :=
  file.functionOwner[i]?.join.bind (file.functions[·]?)

/-- The namespace in force at a token. -/
def namespaceAt (file : SourceFile) (i : Nat) : Namespace :=
  Outline.namespaceAt file.namespaces i

/-- The full name that a name written at a token stands for. -/
def qualify (file : SourceFile) (name : String) (i : Nat) : String :=
  (file.namespaceAt i).qualify name

end SourceFile

end PhpLint
