import PhpLint.Files.Tree
import PhpLint.Storage.Basic

/-!
Storage in files. Every entry is a file of its own, and so is every lock. A lock that is old enough
belongs to nobody.
-/
namespace PhpLint

structure FileStorage where
  root : String
  /-- The age at which a lock is given up, in seconds. -/
  lockTimeout : Nat
  deriving DecidableEq, Repr

namespace FileStorage

def defaultLockTimeout : Nat :=
  60

/-! ### Names of files -/

/-- A character of a key in the name of a file. -/
def nameChar (c : Char) : Char :=
  if c.isAlphanum || c == '-' || c == '_' || c == '.' then c else '_'

/-- The name of a file for a key; never empty, and never made of one or two points alone. -/
def fileName (key : String) : String :=
  let name := String.ofList (key.toList.map nameChar)
  if name == "" || name == "." || name == ".." then "_" ++ name else name

/-- The directory for the entries whose names begin alike. -/
def shard (name : String) : String :=
  String.ofList ((name.toList.take 2).map fun c => if c == '.' then '_' else c)

def entryDirectory (s : FileStorage) (domain key : String) : String :=
  Path.join (Path.join s.root (fileName domain)) (shard (fileName key))

def entryPath (s : FileStorage) (domain key : String) : String :=
  Path.join (s.entryDirectory domain key) (fileName key)

def lockDirectory (s : FileStorage) : String :=
  Path.join s.root "locks"

def lockPath (s : FileStorage) (key : String) : String :=
  Path.join s.lockDirectory (fileName key ++ ".lock")

/-! ### Entries -/

/-- What the name and the path of a file have more while the file is written, in bytes. -/
def temporarySuffix : Nat :=
  30

/-- Puts a file in place when it is whole. -/
def writeWhole (directory name : String) (data : ByteArray) (t : FileTree) :
    Except DiskError FileTree :=
  let path := Path.join directory name
  if FileTree.longestName < name.utf8ByteSize + temporarySuffix
      || FileTree.longestPath < path.utf8ByteSize + temporarySuffix then .error .nameTooLong
  else t.write path data

def restore (s : FileStorage) (domain key : String) (t : FileTree) :
    Except StorageError (Option ByteArray) × FileTree :=
  match t.read (s.entryPath domain key) with
  | .ok data => (.ok (some data), t)
  | .error .notFound => (.ok none, t)
  | .error e => (.error (.disk (s.entryPath domain key) e.message), t)

def save (s : FileStorage) (domain key : String) (data : ByteArray) (t : FileTree) :
    Except StorageError Unit × FileTree :=
  let directory := s.entryDirectory domain key
  match t.ensureDirectories directory with
  | (.error e, t) => (.error (.disk directory e.message), t)
  | (.ok (), t) =>
    match writeWhole directory (fileName key) data t with
    | .ok t => (.ok (), t)
    | .error e => (.error (.disk (s.entryPath domain key) e.message), t)

/-! ### Locks -/

/-- Whether a lock is as old as the timeout. -/
def isStale (s : FileStorage) (path : String) (t : FileTree) : Bool :=
  match t.stat path with
  | .ok (_, .file _ modified) => modified ≤ t.now && s.lockTimeout ≤ t.now - modified
  | _ => false

/-- Takes a lock that is free or stale. -/
def lock (s : FileStorage) (key : String) (t : FileTree) : Bool × FileTree :=
  let path := s.lockPath key
  match t.ensureDirectories s.lockDirectory with
  | (.error _, t) => (false, t)
  | (.ok (), t) =>
    match t.create path with
    | .ok t => (true, t)
    | .error .alreadyExists =>
      if !s.isStale path t then (false, t)
      else
        let t := (t.remove path).toOption.getD t
        match t.create path with
        | .ok t => (true, t)
        | .error _ => (false, t)
    | .error _ => (false, t)

def release (s : FileStorage) (key : String) (t : FileTree) : FileTree :=
  (t.remove (s.lockPath key)).toOption.getD t

def storage (s : FileStorage) : Storage FileTree where
  restore := s.restore
  save := s.save
  lock := s.lock
  release := s.release

end FileStorage

end PhpLint
