/-! Dictionaries as lists of entries in the order of their keys. -/
namespace PhpLint

abbrev Dict (α : Type) := List (String × α)

namespace Dict

variable {α : Type}

def get? (d : Dict α) (key : String) : Option α :=
  d.lookup key

def contains (d : Dict α) (key : String) : Bool :=
  (d.get? key).isSome

/-- Sets the value of a key at its place. -/
def insert (key : String) (value : α) : Dict α → Dict α
  | [] => [(key, value)]
  | (k, v) :: rest =>
    if key == k then (key, value) :: rest
    else if key < k then (key, value) :: (k, v) :: rest
    else (k, v) :: insert key value rest

/-- Changes the value of a key, which is `default` if it has none. -/
def update (key : String) (default : α) (f : α → α) (d : Dict α) : Dict α :=
  d.insert key (f ((d.get? key).getD default))

/-- Entries in any order; the last of a key counts. -/
def ofList (entries : List (String × α)) : Dict α :=
  entries.foldl (fun d (key, value) => d.insert key value) []

def keys (d : Dict α) : List String :=
  d.map (·.1)

def values (d : Dict α) : List α :=
  d.map (·.2)

end Dict

/-- Texts in order, each once. -/
def sortedSet (texts : List String) : List String :=
  (Dict.ofList (texts.map (·, ()))).keys

end PhpLint
