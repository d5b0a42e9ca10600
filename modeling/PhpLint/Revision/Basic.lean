import PhpLint.Text.WhiteSpace

/-! Revisions of the source tree, as they are written on the command line. -/
namespace PhpLint

/-- A failure of source control. -/
inductive SourceControlError where
  | notFound (revision path : String)
  | invalidRevision (revision : String)
  | commandFailed (command output : String)
  | timeout (command : String) (seconds : Nat)
  | spawn (command reason : String)
  | unsupported (revision operation : String)
  deriving DecidableEq, Repr

def SourceControlError.message : SourceControlError → String
  | .notFound revision path => s!"'{path}' does not exist in revision {revision}"
  | .invalidRevision revision => s!"unknown revision '{revision}'"
  | .commandFailed command output => s!"{command} failed: {output}"
  | .timeout command seconds => s!"{command} timed out after {seconds}s"
  | .spawn command reason => s!"cannot run {command}: {reason}"
  | .unsupported revision operation =>
    s!"operation not supported for revision {revision}: {operation}"

/-- A state of the source tree. -/
inductive Revision where
  /-- The files on disk. -/
  | workingTree
  /-- The files staged for the next commit. -/
  | staged
  | head
  /-- Any other name of a commit. -/
  | id (name : String)
  deriving DecidableEq, Repr

namespace Revision

def text : Revision → String
  | .workingTree => ":disk"
  | .staged => ":cached"
  | .head => "HEAD"
  | .id name => name

def isCommit : Revision → Bool
  | .head | .id _ => true
  | _ => false

/-- White space around a name makes no difference; what looks like an option is no name. -/
def parse (s : String) : Except SourceControlError Revision :=
  match Text.trim s with
  | "" => .error (.invalidRevision s)
  | ":disk" => .ok .workingTree
  | ":cached" | ":index" => .ok .staged
  | "HEAD" => .ok .head
  | name => if name.toList.head? == some '-' then .error (.invalidRevision name) else .ok (.id name)

end Revision

/-- What a run looks at: one revision, or what changed between two. -/
inductive RevisionSpec where
  | single (revision : Revision)
  | range (first last : Revision)
  deriving DecidableEq, Repr

namespace RevisionSpec

/-- The texts around the first colon that does not begin the list. -/
def splitColon : List Char → Option (List Char × List Char)
  | [] => none
  | c :: r =>
    if r.contains ':' then some (c :: r.takeWhile (· != ':'), (r.dropWhile (· != ':')).drop 1)
    else none

/-- A colon separates two revisions, unless it begins the first. -/
def parse (s : String) : Except SourceControlError RevisionSpec :=
  let spec := Text.trim s
  if spec.isEmpty then .error (.invalidRevision spec)
  else
    match splitColon spec.toList with
    | some (first, last) => do
      let first ← Revision.parse (String.ofList first)
      let last ← Revision.parse (String.ofList last)
      return .range first last
    | none => (Revision.parse spec).map .single

end RevisionSpec

end PhpLint
