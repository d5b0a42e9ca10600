import PhpLint.Defect.Basic
import PhpLint.Dict
import PhpLint.Project.Declaration

/-!
The classes and functions of a whole project by their names in lower case. The first declaration
of a name counts.
-/
namespace PhpLint

/-- Code of a class that is declared more than once. -/
def duplicateClassCode : String :=
  "xr003"

structure ProjectDatabase where
  classes : Dict ClassDeclaration
  functions : Dict FunctionDeclaration
  /-- In the order in which they were added. -/
  files : List String
  deriving Repr, Inhabited

namespace ProjectDatabase

def empty : ProjectDatabase :=
  ⟨[], [], []⟩

/-- The key of a name; a leading separator makes no difference. -/
def key (name : String) : String :=
  Text.fold (Text.dropLeading '\\' name)

def class? (db : ProjectDatabase) (name : String) : Option ClassDeclaration :=
  db.classes.get? (key name)

def function? (db : ProjectDatabase) (name : String) : Option FunctionDeclaration :=
  db.functions.get? (key name)

/-- The kind of a class at the beginning of a sentence. -/
def kindTitle : Class.Kind → String
  | .classKind => "Class"
  | .interfaceKind => "Interface"
  | .traitKind => "Trait"

/-- Where a class is declared. -/
def place (c : ClassDeclaration) : String :=
  s!"{c.fileName}:{c.line}"

/-- The defect of a second declaration. -/
def duplicate (first second : ClassDeclaration) : Defect :=
  let subject := s!"{kindTitle second.kind} {second.name}"
  .detached projectFileName 0 second.name duplicateClassCode .error
    s!"{subject} is declared in {place first} and {place second}"

def addClass (db : ProjectDatabase) (c : ClassDeclaration) : ProjectDatabase × List Defect :=
  let name := Text.fold c.name
  match db.classes.get? name with
  | some first => (db, [duplicate first c])
  | none => ({ db with classes := db.classes.insert name c }, [])

def addFunction (db : ProjectDatabase) (f : FunctionDeclaration) : ProjectDatabase :=
  let name := Text.fold f.name
  if db.functions.contains name then db
  else { db with functions := db.functions.insert name f }

def addClasses (db : ProjectDatabase) : List ClassDeclaration → ProjectDatabase × List Defect
  | [] => (db, [])
  | c :: cs =>
    let (db, found) := db.addClass c
    let (db, rest) := db.addClasses cs
    (db, found ++ rest)

/-- Merges a file. Answers a defect for each class that had been declared already. -/
def addFile (db : ProjectDatabase) (d : FileDeclarations) : ProjectDatabase × List Defect :=
  let (db, defects) := { db with files := db.files ++ [d.fileName] }.addClasses d.classes
  (d.functions.foldl addFunction db, defects)

/-- The declaration that a class names first as its parent. -/
def parent? (db : ProjectDatabase) (c : ClassDeclaration) : Option ClassDeclaration :=
  c.parents.head?.bind db.class?

/--
Ancestors of a class, the nearest first. They end at an unknown class, and where a name comes back.
`steps` bounds their number; the database has no more classes.
-/
def ancestorsFrom (db : ProjectDatabase) (seen : List String) (c : ClassDeclaration) :
    Nat → List ClassDeclaration
  | 0 => []
  | steps + 1 =>
    match db.parent? c with
    | none => []
    | some parent =>
      if seen.any (Text.sameFold · parent.name) then []
      else parent :: db.ancestorsFrom (parent.name :: seen) parent steps

/-- The ancestors of the class of a name. -/
def ancestors (db : ProjectDatabase) (name : String) : List ClassDeclaration :=
  match db.class? name with
  | some c => db.ancestorsFrom [name] c db.classes.length
  | none => []

end ProjectDatabase

end PhpLint
