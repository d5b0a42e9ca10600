import PhpLint.Model.Attributes

/-!
What a file declares. Every entity points into the token array of its file by index; a class names
its methods by their positions in the file's function list.
-/
namespace PhpLint

/-- Short names in lower case and the full names they stand for; the first entry of a name counts. -/
abbrev ImportMap := List (String × String)

/-- Binds a short name, in place of an earlier binding. -/
def ImportMap.bind (m : ImportMap) (short full : String) : ImportMap :=
  (short, full) :: m.filter fun entry => entry.1 != short

/-- A stretch of the file with one namespace in force. -/
structure Namespace where
  /-- The `namespace` keyword, or the first token of a stretch of global code. -/
  index : Nat
  /-- Empty for global code. -/
  name : String
  bodyStarts : Nat
  /-- The last token; unknown while the stretch is open. -/
  bodyEnds : Option Nat
  imports : ImportMap
  deriving DecidableEq, Repr, Inhabited

/-- Global code that starts at a token. -/
def Namespace.globalFrom (index : Nat) : Namespace :=
  ⟨index, "", index, none, []⟩

def Namespace.contains (ns : Namespace) (i : Nat) : Bool :=
  ns.index ≤ i && ns.bodyEnds.all (i ≤ ·)

def Namespace.isGlobal (ns : Namespace) : Bool :=
  ns.name.isEmpty

inductive Class.Kind where
  | classKind
  | interfaceKind
  | traitKind
  deriving DecidableEq, Repr, Inhabited

def Class.Kind.name : Class.Kind → String
  | .classKind => "class"
  | .interfaceKind => "interface"
  | .traitKind => "trait"

structure Parameter where
  /-- The first token. -/
  index : Nat
  /-- With its `$`. -/
  name : String
  typeName : Option String
  isPassedByReference : Bool
  hasDefaultValue : Bool
  isVariadic : Bool
  deriving DecidableEq, Repr, Inhabited

structure Constant where
  /-- The name token. -/
  index : Nat
  name : String
  className : Option String
  attributes : Attributes
  deriving DecidableEq, Repr, Inhabited

structure Property where
  index : Nat
  /-- With its `$`. -/
  name : String
  className : Option String
  typeName : Option String
  attributes : Attributes
  deriving DecidableEq, Repr, Inhabited

/-- A class, interface or trait. -/
structure Class where
  /-- The keyword. -/
  index : Nat
  kind : Class.Kind
  /-- The name token; an anonymous class has none. -/
  nameIndex : Option Nat
  name : String
  parents : List String
  interfaces : List String
  /-- Traits used inside the body. -/
  traits : List String
  bodyStarts : Nat
  bodyEnds : Nat
  methods : List Nat
  properties : List Property
  constants : List Constant
  attributes : Attributes
  deriving DecidableEq, Repr, Inhabited

def Class.contains (c : Class) (i : Nat) : Bool :=
  c.index ≤ i && i ≤ c.bodyEnds

/-- A function, method, closure or arrow function. -/
structure Function where
  /-- The keyword. -/
  index : Nat
  /-- Qualified for a function, bare for a method, absent for a closure. -/
  name : Option String
  nameIndex : Option Nat
  className : Option String
  classId : Option Nat
  /-- The `{` or `=>` before the body; absent without a body. -/
  bodyStarts : Option Nat
  bodyEnds : Nat
  returnsReference : Bool
  parameters : List Parameter
  /-- The variables a closure takes along. -/
  usedVariables : List Parameter
  isDeclaration : Bool
  attributes : Attributes
  deriving DecidableEq, Repr, Inhabited

namespace Function

def contains (f : Function) (i : Nat) : Bool :=
  f.index ≤ i && i ≤ f.bodyEnds

def isClosure (f : Function) : Bool :=
  f.name.isNone

def isMethod (f : Function) : Bool :=
  f.classId.isSome && f.name.isSome

end Function

end PhpLint
