import PhpLint.Engine.Analysis
import PhpLint.Files.Provider
import PhpLint.Files.Tree
import PhpLint.Json.Writer

/-! What the documentation plugins make of all files, and how it is written to a directory. -/
namespace PhpLint

structure DocumentationOutput where
  /-- The pages of each report. -/
  pages : Dict (List Page)
  links : LinkDatabase
  /-- Files that cannot be parsed, and plugins that failed. -/
  problems : List Defect

namespace DocumentationOutput

def empty : DocumentationOutput :=
  ⟨[], .empty, []⟩

def addProblem (o : DocumentationOutput) (d : Defect) : DocumentationOutput :=
  { o with problems := o.problems ++ [d] }

/-- Adds what a plugin links in a file. -/
def addLinks (o : DocumentationOutput) (file : SourceFile) (pluginId : String)
    (documentation : Documentation) : DocumentationOutput :=
  match documentation.links file with
  | .ok ranges => { o with links := ranges.foldl (·.addRange file.name) o.links }
  | .error failure => o.addProblem (pluginFailure file.name pluginId failure.reason)

/-- Adds the pages of a plugin; each of them can be linked to. -/
def addPages (o : DocumentationOutput) (files : List SourceFile) (pluginId : String)
    (documentation : Documentation) : DocumentationOutput :=
  let linked := files.filter fun file => (documentation.links file).isOk
  match documentation.pages linked with
  | .ok pages =>
    { o with
      links := pages.foldl (fun db page => db.addObject pluginId page.objectId) o.links
      pages := o.pages.update pluginId [] (· ++ pages) }
  | .error failure => o.addProblem (pluginFailure projectFileName pluginId failure.reason)

/-- Adds the links of all plugins in files that have been read. -/
def addFiles (r : Registry) (o : DocumentationOutput) :
    List (String × Except ParserFailure SourceFile) → DocumentationOutput
  | [] => o
  | (name, .error failure) :: files => addFiles r (o.addProblem (unparseable name failure)) files
  | (_, .ok file) :: files =>
    addFiles r (r.documentations.foldl (fun o (id, d) => o.addLinks file id d) o) files

/-- The documentation of a provider's files. Those that cannot be read are left out. -/
def generate (r : Registry) (provider : Provider) : Except ProviderError DocumentationOutput := do
  let names := (← provider.list).filter r.canParse
  let contents := names.filterMap fun name => (provider.content name).toOption.map (name, ·)
  let files := contents.map fun (name, content) => (name, r.parse name content)
  let parsed := files.filterMap fun (_, file) => file.toOption
  return r.documentations.foldl (fun o (id, d) => o.addPages parsed id d) (addFiles r empty files)

/-! ### Writing -/

/-- The path of a page in a directory. -/
def pagePath (directory reportId objectId extension : String) : String :=
  Path.join (Path.join directory reportId) (objectPath objectId extension)

/-- The links of every file, by token. -/
def linkIndex (o : DocumentationOutput) : Json :=
  let position (p : Nat × List SourceLink) : Json :=
    .obj [("index", .nat p.1), ("links", .arr (p.2.map (·.toJson)))]
  .obj (o.links.files.map fun (file, positions) => (file, .arr (positions.map position)))

/-- Every file to write, with its content: the pages, then the links. -/
def outputFiles (o : DocumentationOutput) (directory extension : String) :
    List (String × String) :=
  o.pages.flatMap (fun (reportId, pages) => pages.map fun page =>
      (pagePath directory reportId page.objectId extension, page.content))
    ++ [(Path.join directory "links.json", o.linkIndex.pretty 0)]

/-- Writes files and makes their directories, up to the first failure. -/
def writeFiles : List (String × String) → FileTree → Except DiskError Unit × FileTree
  | [], t => (.ok (), t)
  | (path, content) :: files, t =>
    match t.ensureDirectories ((Path.parent? path).getD "") with
    | (.error e, t) => (.error e, t)
    | (.ok (), t) =>
      match t.write path content.toUTF8 with
      | .error e => (.error e, t)
      | .ok t => writeFiles files t

/-- Writes the documentation to a directory; answers the paths. -/
def write (o : DocumentationOutput) (directory extension : String) (t : FileTree) :
    Except DiskError (List String) × FileTree :=
  let files := o.outputFiles directory extension
  let (result, t) := writeFiles files t
  (result.map fun () => files.map (·.1), t)

end DocumentationOutput

end PhpLint
