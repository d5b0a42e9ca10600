import PhpLint.Json.Writer
import PhpLint.Plugin.Basic

/-! A page for each class and function, with links from the names of declarations to them. -/
namespace PhpLint.DeclarationIndex

def id : String :=
  "php-doc-declarations"

def visibility (a : Attributes) : String :=
  if a.privateAccess then "private" else if a.protectedAccess then "protected" else "public"

/-- A declaration with the token of its name and what its page shows. -/
structure Entry where
  objectId : String
  nameIndex : Nat
  content : Json

/-- A method or property on a page. -/
def member (file : SourceFile) (name : String) (index : Nat) (a : Attributes) (isAbstract : Bool) :
    Json :=
  .obj [("name", .str name), ("lineNumber", .nat (file.lineAt index)),
    ("visibility", .str (visibility a)), ("isStatic", .bool a.static),
    ("isAbstract", .bool isAbstract)]

/-- A list on a page, which an empty one is not on. -/
def listField (name : String) (elements : List Json) : List (String × Json) :=
  if elements.isEmpty then [] else [(name, .arr elements)]

def memberOfMethod? (file : SourceFile) (f : Function) : Option Json :=
  f.name.map fun name => member file name f.index f.attributes f.attributes.abstract

def memberOfProperty (file : SourceFile) (p : Property) : Json :=
  member file p.name p.index p.attributes false

/-- What the page of every kind of declaration begins with. -/
def header (file : SourceFile) (name kind : String) (index : Nat) : List (String × Json) :=
  [("name", .str name), ("kind", .str kind), ("fileName", .str file.name),
    ("lineNumber", .nat (file.lineAt index))]

def entryOfClass? (file : SourceFile) (c : Class) : Option Entry :=
  c.nameIndex.map fun nameIndex => {
    objectId := c.name
    nameIndex
    content := .obj (header file c.name c.kind.name c.index
      ++ listField "extends" (c.parents.map .str)
      ++ listField "implements" (c.interfaces.map .str)
      ++ listField "uses" (c.traits.map .str)
      ++ listField "methods" ((file.methodsOf c).filterMap (memberOfMethod? file))
      ++ listField "properties" (c.properties.map (memberOfProperty file))) }

/-- The entry of a function outside classes. -/
def entryOfFunction? (file : SourceFile) (f : Function) : Option Entry := do
  guard f.classId.isNone
  let name ← f.name
  let nameIndex ← f.nameIndex
  return {
    objectId := name
    nameIndex
    content := .obj (header file name "function" f.index
      ++ listField "parameters" (f.parameters.map fun p => .str p.name)) }

/-- All entries of a file: classes before functions. -/
def entries (file : SourceFile) : List Entry :=
  file.classes.toList.filterMap (entryOfClass? file)
    ++ file.functions.toList.filterMap (entryOfFunction? file)

def links (file : SourceFile) : List LinkedRange :=
  (entries file).map fun e => ⟨e.nameIndex, e.nameIndex, id, e.objectId⟩

/-- A page holds every declaration of its name. -/
def pages (files : List SourceFile) : List Page :=
  let byName := (files.flatMap entries).foldl
    (fun (d : Dict (List Json)) e => d.update e.objectId [] (· ++ [e.content])) []
  byName.map fun (name, contents) => ⟨name, (Json.arr contents).pretty 0⟩

def plugin : Plugin :=
  .ofDocumentation id "Declaration index" {
    links := fun file => .ok (links file)
    pages := fun files => .ok (pages files)
    linkTo := fun db objectId root =>
      if db.hasObject id objectId then some (reportLink id (some objectId) root none "json")
      else none }

end PhpLint.DeclarationIndex
