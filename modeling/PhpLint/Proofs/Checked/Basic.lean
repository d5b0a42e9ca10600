import PhpLint.Proofs.Except

/-!
Computations over machine values. Positions are numbers that may lie outside a sequence, and
counters cannot go below zero; whatever goes wrong there is a trap, apart from the errors that a
computation reports.
-/
namespace PhpLint

/-- What a computation must never run into. -/
inductive Trap where
  /-- A position or range outside a sequence. -/
  | range
  /-- A cut inside a character. -/
  | boundary
  /-- A counter below zero. -/
  | underflow
  /-- A number of more bits than its type has. -/
  | overflow
  /-- A loop that does not advance. -/
  | stuck
  deriving DecidableEq, Repr

/-- Why a computation stops without an answer. -/
inductive Stop (ε : Type) where
  | trap (t : Trap)
  | error (e : ε)
  deriving DecidableEq, Repr

/-- A computation that may report errors and may run into traps. -/
abbrev Checked (ε α : Type) := Except (Stop ε) α

namespace Checked

variable {ε ε' α β : Type}

def trap (t : Trap) : Checked ε α :=
  .error (.trap t)

/-- A computation runs into no trap. -/
def Runs (x : Checked ε α) : Prop :=
  ∀ t, x ≠ trap t

/-- A computation without traps. -/
def ofExcept (x : Except ε α) : Checked ε α :=
  x.mapError .error

/-- The same computation with other errors. -/
def mapFault (f : ε → ε') (x : Checked ε α) : Checked ε' α :=
  x.mapError fun
    | .trap t => .trap t
    | .error e => .error (f e)

/-- What a look-up has found, where it must find something. -/
def present : Option α → Checked ε α
  | some a => .ok a
  | none => trap .range

/-- The elements from `first` up to `last`. -/
def slice (xs : List α) (first last : Nat) : Checked ε (List α) :=
  if first ≤ last ∧ last ≤ xs.length then .ok ((xs.take last).drop first) else trap .range

/-- The elements from `first` on. -/
def sliceFrom (xs : List α) (first : Nat) : Checked ε (List α) :=
  slice xs first xs.length

/-- A difference of counters. -/
def sub (a b : Nat) : Checked ε Nat :=
  if b ≤ a then .ok (a - b) else trap .underflow

/-- A sum in 32 bits. -/
def add32 (a b : Nat) : Checked ε Nat :=
  if a + b < 2 ^ 32 then .ok (a + b) else trap .overflow

/-- The elements of which a check holds. -/
def select (p : α → Checked ε Bool) : List α → Checked ε (List α)
  | [] => .ok []
  | a :: as => do
    let found ← p a
    let rest ← select p as
    return if found then a :: rest else rest

/-- Goes on from a later position of a sequence. -/
def advance (before after : Nat) (next : before < after → Checked ε α) : Checked ε α :=
  if h : before < after then next h else trap .stuck

/-! ### Computations that run into no trap -/

@[simp] theorem ok_bind (a : α) (f : α → Checked ε β) : (Except.ok a : Checked ε α) >>= f = f a :=
  rfl

@[simp] theorem pure_eq_ok (a : α) : (pure a : Checked ε α) = .ok a :=
  rfl

@[simp] theorem error_bind (e : Stop ε) (f : α → Checked ε β) :
    (Except.error e : Checked ε α) >>= f = .error e :=
  rfl

@[simp] theorem ofExcept_ok (a : α) : (ofExcept (.ok a) : Checked ε α) = .ok a :=
  rfl

@[simp] theorem ofExcept_error (e : ε) : (ofExcept (.error e) : Checked ε α) = .error (.error e) :=
  rfl

@[simp] theorem present_some (a : α) : (present (some a) : Checked ε α) = .ok a :=
  rfl

theorem slice_eq_ok {xs : List α} {first last : Nat} (h : first ≤ last) (hlast : last ≤ xs.length) :
    (slice xs first last : Checked ε (List α)) = .ok ((xs.take last).drop first) :=
  if_pos ⟨h, hlast⟩

theorem sliceFrom_eq_ok {xs : List α} {first : Nat} (h : first ≤ xs.length) :
    (sliceFrom xs first : Checked ε (List α)) = .ok (xs.drop first) := by
  unfold sliceFrom
  rw [slice_eq_ok h (Nat.le_refl _), List.take_length]

theorem toList_extract (xs : Array α) (first last : Nat) :
    (xs.extract first last).toList = (xs.toList.take last).drop first := by
  rw [Array.toList_extract, List.extract_eq_take_drop, List.drop_take]

theorem slice_toList {xs : Array α} {first last : Nat} (h : first ≤ last) (hlast : last ≤ xs.size) :
    (slice xs.toList first last : Checked ε (List α)) = .ok (xs.extract first last).toList := by
  rw [slice_eq_ok h hlast, toList_extract]

theorem sub_eq_ok {a b : Nat} (h : b ≤ a) : (sub a b : Checked ε Nat) = .ok (a - b) :=
  if_pos h

theorem add32_eq_ok {a b : Nat} (h : a + b < 2 ^ 32) : (add32 a b : Checked ε Nat) = .ok (a + b) :=
  if_pos h

theorem advance_eq {before after : Nat} {next : before < after → Checked ε α}
    (h : before < after) : advance before after next = next h :=
  dif_pos h

theorem runs_ofExcept (x : Except ε α) : Runs (ofExcept x) := by
  intro t
  cases x <;> simp [trap]

theorem ofExcept_eq_ok {x : Except ε α} {a : α} : ofExcept x = .ok a ↔ x = .ok a := by
  cases x <;> simp

theorem mapM_eq_ok {f : α → Checked ε β} {g : α → β} {xs : List α}
    (h : ∀ x ∈ xs, f x = .ok (g x)) : xs.mapM f = .ok (xs.map g) := by
  induction xs with
  | nil => rfl
  | cons x xs ih =>
    rw [List.mapM_cons, h x List.mem_cons_self, ih fun y hy => h y (List.mem_cons_of_mem x hy)]
    rfl

theorem select_eq_ok {p : α → Checked ε Bool} {q : α → Bool} {xs : List α}
    (h : ∀ x ∈ xs, p x = .ok (q x)) : select p xs = .ok (xs.filter q) := by
  induction xs with
  | nil => rfl
  | cons x xs ih =>
    rw [select, h x List.mem_cons_self, ih fun y hy => h y (List.mem_cons_of_mem x hy),
      List.filter_cons]
    rfl

end Checked

end PhpLint
