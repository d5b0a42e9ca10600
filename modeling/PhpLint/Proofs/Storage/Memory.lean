import PhpLint.Engine.Cache
import PhpLint.Proofs.Dict
import PhpLint.Storage.Memory

/-! What a memory holds after a result was kept, and what is locked then. -/
namespace PhpLint.MemoryStorage

variable {m : MemoryStorage} {domain domain' key key' : String} {data : ByteArray}

theorem get?_insert_self : (m.insert domain key data).get? domain key = some data :=
  List.lookup_cons_self

theorem get?_insert_of_ne (h : (domain', key') ≠ (domain, key)) :
    (m.insert domain key data).get? domain' key' = m.get? domain' key' := by
  unfold insert get?
  have hkey : ((domain', key') == (domain, key)) = false := beq_eq_false_iff_ne.mpr h
  rw [List.lookup_cons, hkey]
  exact lookup_filter_of_ne h m.entries

/-- Nothing is kept under a key that is locked, and the locks stay as they are. -/
theorem keep_eq (m : MemoryStorage) (key : String) (entry : CacheEntry) :
    storage.keep key entry m =
      if key ∈ m.locks then m else m.insert CacheEntry.domain key entry.toBytes := by
  unfold Storage.keep storage
  by_cases h : key ∈ m.locks
  · simp [h]
  · have hlocks : (key :: m.locks).filter (· != key) = m.locks := by
      rw [List.filter_cons_of_neg (by simp), List.filter_eq_self]
      intro k hk
      rw [bne_iff_ne]
      rintro rfl
      exact h hk
    simp [h, insert, hlocks]

@[simp] theorem keep_locks (m : MemoryStorage) (key : String) (entry : CacheEntry) :
    (storage.keep key entry m).locks = m.locks := by
  rw [keep_eq]
  split <;> rfl

/-- The entry of a key, if there is one that can be read. -/
def kept? (m : MemoryStorage) (key : String) : Option CacheEntry :=
  (m.get? CacheEntry.domain key).bind CacheEntry.ofBytes?

theorem storage_kept? (m : MemoryStorage) (key : String) :
    storage.entry? key m = (m.kept? key, m) := by
  unfold Storage.entry? kept?
  cases h : m.get? CacheEntry.domain key with
  | none => simp [storage, h]
  | some data => simp [storage, h]

end PhpLint.MemoryStorage
