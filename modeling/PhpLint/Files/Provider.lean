import PhpLint.Dict
import PhpLint.Files.PathFilter

/-! Where files come from. What is excluded never leaves a provider. -/
namespace PhpLint

/-- The files of one place or revision. -/
structure Provider where
  /-- Relative paths with forward slashes. -/
  list : Except ProviderError (List String)
  content : (path : String) → Except ProviderError ByteArray

/-- Files held in memory. -/
structure MemoryFiles where
  files : Dict ByteArray
  filter : PathFilter
  deriving Inhabited

namespace MemoryFiles

def ofFiles (files : List (String × ByteArray)) : MemoryFiles :=
  ⟨.ofList files, .empty⟩

def insert (m : MemoryFiles) (path : String) (content : ByteArray) : MemoryFiles :=
  { m with files := m.files.insert path content }

def erase (m : MemoryFiles) (path : String) : MemoryFiles :=
  { m with files := m.files.filter (·.1 != path) }

/-- Leaves out what patterns match. -/
def exclude (m : MemoryFiles) (patterns : List String) : MemoryFiles × Except ProviderError Unit :=
  let (filter, result) := m.filter.add patterns
  ({ m with filter }, result)

def list (m : MemoryFiles) : List String :=
  m.files.keys.filter (!m.filter.isExcluded ·)

/-- The content of a file, also of one that is excluded. -/
def content (m : MemoryFiles) (path : String) : Except ProviderError ByteArray :=
  match m.files.get? path with
  | some content => .ok content
  | none => .error (.notFound path)

def provider (m : MemoryFiles) : Provider :=
  ⟨.ok m.list, m.content⟩

end MemoryFiles

end PhpLint
