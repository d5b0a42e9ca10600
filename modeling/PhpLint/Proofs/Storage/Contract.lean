import PhpLint.Proofs.Storage.Memory

/-! What a storage is for: what was saved last at an address is what is restored from it. -/
namespace PhpLint.Storage

variable {σ : Type}

/-- A domain and a key. -/
abbrev Address := String × String

inductive Call where
  | save (address : Address) (data : ByteArray)
  | restore (address : Address)

def Call.address : Call → Address
  | .save address _ => address
  | .restore address => address

/-- What a call answers. Nothing is read by one that saves. -/
abbrev Reply := Except StorageError (Option ByteArray)

def call (storage : Storage σ) : Call → σ → Reply × σ
  | .save address data, st =>
    ((storage.save address.1 address.2 data st).1.map fun _ => Option.none,
      (storage.save address.1 address.2 data st).2)
  | .restore address, st => storage.restore address.1 address.2 st

/-- The answers to calls one after the other. -/
def replies (storage : Storage σ) : List Call → σ → List Reply
  | [], _ => []
  | c :: calls, st => (storage.call c st).1 :: storage.replies calls (storage.call c st).2

/-! ### The contract -/

variable {nameOf : Address → Address} {past : List Call} {A : Set Address}

/-- What was saved last at an address, where addresses with the same name are one. The last call
comes first. -/
def latest? (nameOf : Address → Address) : List Call → Address → Option ByteArray
  | [], _ => Option.none
  | .save address data :: past, a =>
    if nameOf address = nameOf a then some data else latest? nameOf past a
  | .restore _ :: past, a => latest? nameOf past a

def dueReply (nameOf : Address → Address) (past : List Call) : Call → Reply
  | .save _ _ => .ok Option.none
  | .restore address => .ok (latest? nameOf past address)

/-- The answers that are due to calls after others. -/
def dueReplies (nameOf : Address → Address) (past : List Call) : List Call → List Reply
  | [] => []
  | c :: calls => dueReply nameOf past c :: dueReplies nameOf (c :: past) calls

/-- A storage answers what is due if each state of it says what was saved, as long as it does not
fail. -/
theorem replies_eq_dueReplies {storage : Storage σ} (Recalls : σ → List Call → Prop)
    (hstep : ∀ {st past}, Recalls st past → ∀ c, (storage.call c st).1.isOk →
      (storage.call c st).1 = dueReply nameOf past c ∧ Recalls (storage.call c st).2 (c :: past))
    {st : σ} (hst : Recalls st past) {calls : List Call}
    (hok : ∀ r ∈ storage.replies calls st, r.isOk) :
    storage.replies calls st = dueReplies nameOf past calls := by
  induction calls generalizing st past with
  | nil => rfl
  | cons c calls ih =>
    obtain ⟨hreply, hnext⟩ := hstep hst c (hok _ List.mem_cons_self)
    rw [replies, dueReplies, hreply, ih hnext fun r hr => hok r (List.mem_cons_of_mem _ hr)]

theorem latest?_eq_of_injOn (hinj : A.InjOn nameOf) (hpast : ∀ c ∈ past, c.address ∈ A)
    {a : Address} (ha : a ∈ A) : latest? nameOf past a = latest? id past a := by
  induction past with
  | nil => rfl
  | cons c past ih =>
    have hrest := ih fun c hc => hpast c (List.mem_cons_of_mem _ hc)
    cases c with
    | save address data =>
      have hname : nameOf address = nameOf a ↔ address = a :=
        hinj.eq_iff (hpast _ List.mem_cons_self) ha
      rw [latest?, latest?, hrest]
      simp only [hname, id]
    | restore address => exact hrest

theorem dueReplies_eq_of_injOn (hinj : A.InjOn nameOf) {calls : List Call}
    (hpast : ∀ c ∈ past, c.address ∈ A) (hcalls : ∀ c ∈ calls, c.address ∈ A) :
    dueReplies nameOf past calls = dueReplies id past calls := by
  induction calls generalizing past with
  | nil => rfl
  | cons c calls ih =>
    have hc := hcalls c List.mem_cons_self
    have hnext : ∀ c' ∈ c :: past, c'.address ∈ A := by
      intro c' hc'
      rcases List.mem_cons.mp hc' with rfl | hc'
      · exact hc
      · exact hpast c' hc'
    rw [dueReplies, dueReplies, ih hnext fun c' hc' => hcalls c' (List.mem_cons_of_mem _ hc')]
    cases c with
    | save => rfl
    | restore address =>
      have haddress : address ∈ A := hc
      rw [dueReply, dueReply, latest?_eq_of_injOn hinj hpast haddress]

/-- Names tell the addresses in a set apart exactly if nobody who keeps to the set can tell that
they stand for them. -/
theorem dueReplies_eq_iff_injOn (nameOf : Address → Address) (A : Set Address) :
    (∀ calls : List Call, (∀ c ∈ calls, c.address ∈ A) →
      dueReplies nameOf [] calls = dueReplies id [] calls) ↔ A.InjOn nameOf := by
  constructor
  · intro hcalls a ha b hb hname
    have hreplies := hcalls [.save a .empty, .restore b] (by simp [Call.address, ha, hb])
    simp only [dueReplies, dueReply, latest?, hname, if_true, id] at hreplies
    by_contra hne
    simp [hne] at hreplies
  · intro hinj calls hcalls
    exact dueReplies_eq_of_injOn hinj (by simp) hcalls

/-! ### In memory -/

/-- A memory never fails, and answers what is due. -/
theorem memory_replies (calls : List Call) :
    MemoryStorage.storage.replies calls .empty = dueReplies id [] calls := by
  have hok (m : MemoryStorage) : ∀ r ∈ MemoryStorage.storage.replies calls m, r.isOk := by
    induction calls generalizing m with
    | nil => exact fun _ hr => absurd hr List.not_mem_nil
    | cons c calls ih =>
      intro r hr
      rcases List.mem_cons.mp hr with rfl | hr
      · cases c <;> rfl
      · exact ih _ r hr
  refine replies_eq_dueReplies (fun m past => ∀ a, m.get? a.1 a.2 = latest? id past a)
    (fun {m past} hm c _ => ?_) (fun _ => rfl) (hok .empty)
  cases c with
  | restore address => exact ⟨congrArg Except.ok (hm address), hm⟩
  | save address data =>
    refine ⟨rfl, fun a => ?_⟩
    by_cases heq : address = a
    · subst heq
      rw [latest?, if_pos rfl]
      exact MemoryStorage.get?_insert_self
    · have hname : ¬ id address = id a := heq
      rw [latest?, if_neg hname, ← hm a]
      exact MemoryStorage.get?_insert_of_ne (Ne.symm heq)

end PhpLint.Storage
