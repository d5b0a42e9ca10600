import PhpLint.Files.Error

/-!
Places where data is kept between runs. Data is found by a domain and a key. A lock on a key is a
matter of agreement: who does not get it goes on without writing.
-/
namespace PhpLint

/-- A storage as what it does to the state `σ` behind it. -/
structure Storage (σ : Type) where
  restore : (domain key : String) → σ → Except StorageError (Option ByteArray) × σ
  save : (domain key : String) → (data : ByteArray) → σ → Except StorageError Unit × σ
  /-- Whether the lock was free; it is taken then. -/
  lock : (key : String) → σ → Bool × σ
  release : (key : String) → σ → σ

/-- The storage that keeps nothing and locks nothing. -/
def Storage.none : Storage Unit where
  restore _ _ s := (.ok Option.none, s)
  save _ _ _ s := (.ok (), s)
  lock _ s := (false, s)
  release _ s := s

end PhpLint
