import PhpLint.Dict
import PhpLint.Json.Basic
import PhpLint.Text.Ascii

/-!
Links between source text and documentation pages. A linked range of tokens is opened at its first
token and closed after its last one.
-/
namespace PhpLint

/-- One end of a linked range. -/
inductive SourceLink where
  | opens (reportId objectId : String)
  | closes
  deriving DecidableEq, Repr

/-- A range of tokens that links to the page of an object. -/
structure LinkedRange where
  first : Nat
  last : Nat
  reportId : String
  objectId : String
  deriving DecidableEq, Repr

/-- The ends of ranges at each token, in the order of the tokens. -/
abbrev Boundaries := List (Nat × List SourceLink)

/-- Adds an end of a range behind those at the same token. -/
def Boundaries.add (position : Nat) (link : SourceLink) : Boundaries → Boundaries
  | [] => [(position, [link])]
  | (i, links) :: rest =>
    if position == i then (i, links ++ [link]) :: rest
    else if position < i then (position, [link]) :: (i, links) :: rest
    else (i, links) :: Boundaries.add position link rest

def Boundaries.addRange (b : Boundaries) (range : LinkedRange) : Boundaries :=
  let opened := Boundaries.add range.first (.opens range.reportId range.objectId) b
  Boundaries.add (range.last + 1) .closes opened

/-- The objects with pages, and the linked ranges of each file. -/
structure LinkDatabase where
  objects : Dict (List String)
  files : Dict Boundaries
  deriving Repr, Inhabited

namespace LinkDatabase

def empty : LinkDatabase :=
  ⟨[], []⟩

/-- Records that a report has a page for an object. -/
def addObject (db : LinkDatabase) (reportId objectId : String) : LinkDatabase :=
  { db with objects := db.objects.update reportId [] fun ids => sortedSet (objectId :: ids) }

/-- The objects of a report, in order. -/
def objectsOf (db : LinkDatabase) (reportId : String) : List String :=
  (db.objects.get? reportId).getD []

def hasObject (db : LinkDatabase) (reportId objectId : String) : Bool :=
  (db.objectsOf reportId).contains objectId

def addRange (db : LinkDatabase) (fileName : String) (range : LinkedRange) : LinkDatabase :=
  { db with files := db.files.update fileName [] (·.addRange range) }

/-- The ends of ranges in a file, by token. -/
def sourceLinks (db : LinkDatabase) (fileName : String) : Boundaries :=
  (db.files.get? fileName).getD []

end LinkDatabase

/-- Two points that follow each other are no part of a path. -/
def replaceDoublePoints : List Char → List Char
  | '.' :: '.' :: r => '-' :: '-' :: replaceDoublePoints r
  | c :: r => c :: replaceDoublePoints r
  | [] => []

/-- A character of an object's name inside a path. -/
def pathChar (c : Char) : Char :=
  if c == '\\' then '/'
  else if c.isAlphanum || c == '.' || c == '-' || c == '/' then c
  else '-'

/-- Path of an object's page: its separators become those of a path. -/
def objectPath (objectId extension : String) : String :=
  String.ofList (replaceDoublePoints (objectId.toList.map pathChar)) ++ "." ++ extension

/-- Link to a report, or to the page of an object in it, from `root`. -/
def reportLink (reportId : String) (objectId : Option String) (root : String)
    (anchor : Option String) (extension : String) : String :=
  let page := match objectId with
    | some id => reportId ++ "/" ++ objectPath id extension
    | none => reportId ++ "." ++ extension
  root ++ page ++ (anchor.map ("#" ++ ·)).getD ""

def SourceLink.toJson : SourceLink → Json
  | .opens reportId objectId =>
    .obj [("kind", .str "open"), ("report_id", .str reportId), ("object_id", .str objectId)]
  | .closes => .obj [("kind", .str "close")]

end PhpLint
