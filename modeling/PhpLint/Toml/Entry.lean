import PhpLint.Toml.Basic

/-!
Tables while a file is read. A table can be written at once, or be implied by the header of a table
inside it, or by a key with points. Nothing is defined twice.
-/
namespace PhpLint.Toml

/-- What a table owes its existence to. -/
inductive Origin where
  | header
  /-- The header of a table inside it; its own may follow. -/
  | implied
  /-- A key with points. -/
  | dotted
  deriving DecidableEq, Repr

inductive Entry where
  | value (v : Value)
  | table (origin : Origin) (entries : List (String × Entry))
  /-- A list of tables, the last one first. -/
  | tables (reversed : List (List (String × Entry)))
  deriving Repr, Inhabited

abbrev Entries := List (String × Entry)

namespace Entries

def put (key : String) (e : Entry) (es : Entries) : Entries :=
  (key, e) :: es.filter (·.1 != key)

/-- Adds a value under a key with points, of which `path` is all but the last part. -/
def addValue (key : String) (v : Value) : (path : List String) → Entries → Option Entries
  | [], es => if (es.lookup key).isSome then none else some (es.put key (.value v))
  | p :: path, es =>
    match es.lookup p with
    | none => (addValue key v path []).map fun inner => es.put p (.table .dotted inner)
    | some (.table .dotted inner) =>
      (addValue key v path inner).map fun inner => es.put p (.table .dotted inner)
    | some (.table .implied inner) =>
      if path.isEmpty then none
      else (addValue key v path inner).map fun inner => es.put p (.table .implied inner)
    | some (.tables (last :: before)) =>
      if path.isEmpty then none
      else (addValue key v path last).map fun last => es.put p (.tables (last :: before))
    | some _ => none

/-- Changes the table that a header names; its last part is the `final` one. -/
def atHeader (final : Option Entry → Option Entry) : (path : List String) → Entries → Option Entries
  | [], _ => none
  | [key], es => (final (es.lookup key)).map fun e => es.put key e
  | p :: path, es =>
    match es.lookup p with
    | none => (atHeader final path []).map fun inner => es.put p (.table .implied inner)
    | some (.table origin inner) =>
      (atHeader final path inner).map fun inner => es.put p (.table origin inner)
    | some (.tables (last :: before)) =>
      (atHeader final path last).map fun last => es.put p (.tables (last :: before))
    | some _ => none

/-- Begins a table; a header may only name what no other has named. -/
def openTable (path : List String) (es : Entries) : Option Entries :=
  es.atHeader (fun e =>
    match e with
    | none => some (.table .header [])
    | some (.table .implied inner) => some (.table .header inner)
    | some _ => none) path

/-- Begins another table of a list. -/
def openElement (path : List String) (es : Entries) : Option Entries :=
  es.atHeader (fun e =>
    match e with
    | none => some (.tables [[]])
    | some (.tables done) => some (.tables ([] :: done))
    | some _ => none) path

/-- Changes the table whose header came last; without a header the file itself. -/
def update (f : Entries → Option Entries) (header : List String) (es : Entries) : Option Entries :=
  if header.isEmpty then f es
  else es.atHeader (fun e =>
    match e with
    | some (.table origin inner) => (f inner).map (.table origin)
    | some (.tables (last :: before)) => (f last).map fun last => .tables (last :: before)
    | _ => none) header

end Entries

mutual

def Entry.toValue : Entry → Value
  | .value v => v
  | .table _ entries => .table (Dict.ofList (valuesOf entries))
  | .tables reversed => .array (tablesOf reversed).reverse

def valuesOf : List (String × Entry) → List (String × Value)
  | [] => []
  | (key, e) :: es => (key, e.toValue) :: valuesOf es

def tablesOf : List (List (String × Entry)) → List Value
  | [] => []
  | es :: rest => .table (Dict.ofList (valuesOf es)) :: tablesOf rest

end

def Entries.toTable (es : Entries) : Table :=
  .ofList (valuesOf es)

end PhpLint.Toml
