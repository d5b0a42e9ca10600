import PhpLint.Engine.Analysis
import PhpLint.Json.Reader
import PhpLint.Json.Writer
import PhpLint.Storage.Basic

/-!
Results of earlier runs. A result is found again by a key that depends on the file's name and
content, and on everything else that its analysis depends on.
-/
namespace PhpLint

/-- What an engine looks at: files one by one, or also the project that they make up. -/
inductive LintMode where
  | simple
  | project
  deriving DecidableEq, Repr, Inhabited

namespace LintMode

def name : LintMode → String
  | .simple => "simple"
  | .project => "project"

def collects : LintMode → Bool
  | .simple => false
  | .project => true

end LintMode

/-- The analysis of a file in the form in which it is kept. -/
structure CacheEntry where
  fileName : String
  analysis : FileAnalysis
  deriving DecidableEq, Repr, Inhabited

namespace CacheEntry

/-- The domain in which entries are kept. -/
def domain : String :=
  "lint"

/-- Changes with the form of the entries. -/
def format : String :=
  "2"

def toJson (e : CacheEntry) : Json :=
  .obj [("file_name", .str e.fileName),
    ("defects", .arr (e.analysis.defects.map (·.toJson))),
    ("declarations", .opt FileDeclarations.toJson e.analysis.declarations)]

def toBytes (e : CacheEntry) : ByteArray :=
  e.toJson.compact.toUTF8

/-- Absent declarations are null, or not there at all. -/
def ofRaw? (j : Json.Raw) : Option CacheEntry := do
  let r ← j.record? ["file_name", "defects", "declarations"]
  let fileName ← (← r.lookup "file_name").str?
  let defects ← (← r.lookup "defects").list? Defect.ofRaw?
  let declarations ← ((r.lookup "declarations").getD .null).option? FileDeclarations.ofRaw?
  return ⟨fileName, defects, declarations⟩

def ofBytes? (data : ByteArray) : Option CacheEntry :=
  (Json.Raw.read? data).bind ofRaw?

end CacheEntry

/-- The bytes of a text. -/
def textBytes (s : String) : List UInt8 :=
  s.toUTF8.toList

/-- Identity of all that an analysis depends on besides the file. -/
def Registry.analysisFingerprint (r : Registry) (mode : LintMode) : String :=
  Sha256.hexDigest
    (textBytes CacheEntry.format ++ 0 :: textBytes mode.name ++ 0 :: textBytes r.fingerprint)

/-- The key of a file's analysis. -/
def cacheKey (fingerprint fileName : String) (content : ByteArray) : String :=
  Sha256.hexDigest (textBytes fileName ++ 0 :: Sha256.digest content.toList
    ++ 0 :: textBytes fingerprint)

/-- The entry of a key; one that cannot be read counts as absent. -/
def Storage.entry? {σ : Type} (storage : Storage σ) (key : String) (s : σ) :
    Option CacheEntry × σ :=
  match storage.restore CacheEntry.domain key s with
  | (.ok (some data), s) => (CacheEntry.ofBytes? data, s)
  | (_, s) => (Option.none, s)

/-- Keeps an entry unless its key is locked. The lock is given back, and failures are ignored. -/
def Storage.keep {σ : Type} (storage : Storage σ) (key : String) (entry : CacheEntry) (s : σ) : σ :=
  match storage.lock key s with
  | (true, s) => storage.release key (storage.save CacheEntry.domain key entry.toBytes s).2
  | (false, s) => s

end PhpLint
