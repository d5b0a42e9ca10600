import PhpLint.Json.Raw
import PhpLint.Model.SourceFile

/-! What a file declares, detached from its tokens. -/
namespace PhpLint

structure MethodDeclaration where
  name : String
  line : Nat
  attributes : Attributes
  parameterCount : Nat
  requiredParameterCount : Nat
  callsParentConstructor : Bool
  deriving DecidableEq, Repr, Inhabited

structure ClassDeclaration where
  name : String
  kind : Class.Kind
  fileName : String
  line : Nat
  parents : List String
  interfaces : List String
  traits : List String
  attributes : Attributes
  methods : List MethodDeclaration
  deriving DecidableEq, Repr, Inhabited

structure FunctionDeclaration where
  name : String
  fileName : String
  line : Nat
  parameterCount : Nat
  requiredParameterCount : Nat
  deriving DecidableEq, Repr, Inhabited

/-- The named classes and free functions of a file. -/
structure FileDeclarations where
  fileName : String
  classes : List ClassDeclaration
  functions : List FunctionDeclaration
  deriving DecidableEq, Repr, Inhabited

/-- The method of a name, in any case. -/
def ClassDeclaration.method? (c : ClassDeclaration) (name : String) : Option MethodDeclaration :=
  c.methods.find? fun m => Text.sameFold m.name name

def ClassDeclaration.constructor? (c : ClassDeclaration) : Option MethodDeclaration :=
  c.method? "__construct"

/-! ### Extraction -/

/-- Parameters without a default value that take exactly one argument. -/
def Function.requiredParameterCount (f : Function) : Nat :=
  (f.parameters.filter fun p => !p.hasDefaultValue && !p.isVariadic).length

namespace SourceFile

/-- Whether a call of the parent's constructor starts at a token. -/
def isParentConstructorCall (file : SourceFile) (i : Nat) : Bool :=
  file.tokens[i]?.any (·.isWord "parent") &&
    (file.nextSignificant i).any fun colons =>
      colons.is "::" &&
        (file.nextSignificant colons.index).any fun name => Text.sameFold name.text "__construct"

def callsParentConstructor (file : SourceFile) (f : Function) : Bool :=
  match f.bodyStarts with
  | none => false
  | some start => (List.range' start (f.bodyEnds - start)).any file.isParentConstructorCall

def methodDeclaration? (file : SourceFile) (f : Function) : Option MethodDeclaration :=
  f.name.map fun name =>
    { name
      line := file.lineAt f.index
      attributes := f.attributes
      parameterCount := f.parameters.length
      requiredParameterCount := f.requiredParameterCount
      callsParentConstructor := file.callsParentConstructor f }

def classDeclaration (file : SourceFile) (c : Class) : ClassDeclaration where
  name := c.name
  kind := c.kind
  fileName := file.name
  line := file.lineAt c.index
  parents := c.parents
  interfaces := c.interfaces
  traits := c.traits
  attributes := c.attributes
  methods := (file.methodsOf c).filterMap file.methodDeclaration?

def functionDeclaration? (file : SourceFile) (f : Function) : Option FunctionDeclaration :=
  f.name.map fun name =>
    { name
      fileName := file.name
      line := file.lineAt f.index
      parameterCount := f.parameters.length
      requiredParameterCount := f.requiredParameterCount }

def declarations (file : SourceFile) : FileDeclarations where
  fileName := file.name
  classes := (file.classes.toList.filter (·.nameIndex.isSome)).map file.classDeclaration
  functions :=
    (file.functions.toList.filter (·.classId.isNone)).filterMap file.functionDeclaration?

end SourceFile

/-! ### The form in which declarations are kept -/

def MethodDeclaration.toJson (m : MethodDeclaration) : Json :=
  .obj [("name", .str m.name), ("line_number", .nat m.line),
    ("attributes", .str m.attributes.text), ("parameter_count", .nat m.parameterCount),
    ("required_parameter_count", .nat m.requiredParameterCount),
    ("calls_parent_constructor", .bool m.callsParentConstructor)]

def ClassDeclaration.toJson (c : ClassDeclaration) : Json :=
  .obj [("name", .str c.name), ("kind", .str c.kind.name), ("file_name", .str c.fileName),
    ("line_number", .nat c.line), ("extends", .strings c.parents),
    ("implements", .strings c.interfaces), ("uses", .strings c.traits),
    ("attributes", .str c.attributes.text), ("methods", .arr (c.methods.map (·.toJson)))]

def FunctionDeclaration.toJson (f : FunctionDeclaration) : Json :=
  .obj [("name", .str f.name), ("file_name", .str f.fileName), ("line_number", .nat f.line),
    ("parameter_count", .nat f.parameterCount),
    ("required_parameter_count", .nat f.requiredParameterCount)]

def FileDeclarations.toJson (d : FileDeclarations) : Json :=
  .obj [("file_name", .str d.fileName), ("classes", .arr (d.classes.map (·.toJson))),
    ("functions", .arr (d.functions.map (·.toJson)))]

def Class.Kind.ofName? (name : String) : Option Class.Kind :=
  [Class.Kind.classKind, .interfaceKind, .traitKind].find? (·.name == name)

def MethodDeclaration.ofRaw? (j : Json.Raw) : Option MethodDeclaration := do
  let r ← j.record? ["name", "line_number", "attributes", "parameter_count",
    "required_parameter_count", "calls_parent_constructor"]
  return {
    name := ← (← r.lookup "name").str?
    line := ← (← r.lookup "line_number").nat? 32
    attributes := ← Attributes.ofText? (← (← r.lookup "attributes").str?)
    parameterCount := ← (← r.lookup "parameter_count").nat? 64
    requiredParameterCount := ← (← r.lookup "required_parameter_count").nat? 64
    callsParentConstructor := ← (← r.lookup "calls_parent_constructor").bool? }

def ClassDeclaration.ofRaw? (j : Json.Raw) : Option ClassDeclaration := do
  let r ← j.record? ["name", "kind", "file_name", "line_number", "extends", "implements", "uses",
    "attributes", "methods"]
  return {
    name := ← (← r.lookup "name").str?
    kind := ← Class.Kind.ofName? (← (← r.lookup "kind").word?)
    fileName := ← (← r.lookup "file_name").str?
    line := ← (← r.lookup "line_number").nat? 32
    parents := ← (← r.lookup "extends").list? Json.Raw.str?
    interfaces := ← (← r.lookup "implements").list? Json.Raw.str?
    traits := ← (← r.lookup "uses").list? Json.Raw.str?
    attributes := ← Attributes.ofText? (← (← r.lookup "attributes").str?)
    methods := ← (← r.lookup "methods").list? MethodDeclaration.ofRaw? }

def FunctionDeclaration.ofRaw? (j : Json.Raw) : Option FunctionDeclaration := do
  let r ← j.record? ["name", "file_name", "line_number", "parameter_count",
    "required_parameter_count"]
  return {
    name := ← (← r.lookup "name").str?
    fileName := ← (← r.lookup "file_name").str?
    line := ← (← r.lookup "line_number").nat? 32
    parameterCount := ← (← r.lookup "parameter_count").nat? 64
    requiredParameterCount := ← (← r.lookup "required_parameter_count").nat? 64 }

def FileDeclarations.ofRaw? (j : Json.Raw) : Option FileDeclarations := do
  let r ← j.record? ["file_name", "classes", "functions"]
  return {
    fileName := ← (← r.lookup "file_name").str?
    classes := ← (← r.lookup "classes").list? ClassDeclaration.ofRaw?
    functions := ← (← r.lookup "functions").list? FunctionDeclaration.ofRaw? }

end PhpLint
