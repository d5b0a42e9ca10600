import PhpLint.Storage.Basic

/-! Storage in memory. -/
namespace PhpLint

structure MemoryStorage where
  /-- Data by domain and key; each pair is there once. -/
  entries : List ((String × String) × ByteArray)
  /-- The keys that are locked. -/
  locks : List String
  deriving Inhabited

namespace MemoryStorage

def empty : MemoryStorage :=
  ⟨[], []⟩

/-- Number of entries. -/
def size (m : MemoryStorage) : Nat :=
  m.entries.length

def get? (m : MemoryStorage) (domain key : String) : Option ByteArray :=
  m.entries.lookup (domain, key)

def insert (m : MemoryStorage) (domain key : String) (data : ByteArray) : MemoryStorage :=
  { m with entries := ((domain, key), data) :: m.entries.filter (·.1 != (domain, key)) }

/-- A memory is a storage that never fails. -/
def storage : Storage MemoryStorage where
  restore domain key m := (.ok (m.get? domain key), m)
  save domain key data m := (.ok (), m.insert domain key data)
  lock key m := if m.locks.contains key then (false, m) else (true, { m with locks := key :: m.locks })
  release key m := { m with locks := m.locks.filter (· != key) }

end MemoryStorage

end PhpLint
