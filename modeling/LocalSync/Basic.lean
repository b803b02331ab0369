/-
  The machine under the model: faults, addresses and the pointer-sized integer.

  A model function that can panic, or that would run into undefined behaviour,
  returns in `Except Fault`.  Reads of freed memory and of uninitialised slots
  are faults of their own, so "this never happens" is a theorem about the
  model and not a convention of it.

  Arithmetic on `usize` is that of a release build: it wraps modulo `2 ^ bits`,
  and the width of `usize` is a parameter, as it is in the source.  All else is
  checked as in a dev build: debug assertions are assertions, and where one is
  taken off a count, of handles or of values in a queue, the count is tested first.
  No run of the program fails such a test, so that for these the two builds agree.
  They differ in the packed counter of a semaphore, the only number that can
  overflow: where it wraps here, a dev build panics.
-/
import Mathlib.Algebra.Group.Nat.Defs

namespace LocalSync

/-- What can stop a computation. -/
inductive Fault where
  /-- A failed assertion, an `expect` or an index out of bounds, with its message. -/
  | panic (message : String)
  /-- A pointer to freed memory was dereferenced. -/
  | dangling
  /-- An uninitialised slot was read. -/
  | uninit
  /-- A loop used up the fuel its model was given. -/
  | diverges
  deriving DecidableEq, Repr

/-- A panic that unwinds: the state it leaves behind, once the locals are dropped. -/
structure Unwind (σ : Type) where
  fault : Fault
  state : σ

section Except

variable {ε α β : Type}

@[simp] theorem ok_bind (a : α) (f : α → Except ε β) : (Except.ok a >>= f) = f a := rfl

@[simp] theorem error_bind (e : ε) (f : α → Except ε β) :
    ((Except.error e : Except ε α) >>= f) = .error e := rfl

@[simp] theorem pure_eq_ok (a : α) : (pure a : Except ε α) = .ok a := rfl

/-- A sequence of two computations returns exactly when both do. -/
theorem bind_eq_ok {x : Except ε α} {f : α → Except ε β} {b : β} :
    (x >>= f) = .ok b ↔ ∃ a, x = .ok a ∧ f a = .ok b := by
  cases x <;> simp

theorem bind_eq_error {x : Except ε α} {f : α → Except ε β} {e : ε} :
    (x >>= f) = .error e ↔ x = .error e ∨ ∃ a, x = .ok a ∧ f a = .error e := by
  cases x with
  | error e' => simp
  | ok a => simp

/-- A sequence fails in its first part, if its second part always returns. -/
theorem error_of_bind {x : Except ε α} {f : α → Except ε β} {e : ε} (h : (x >>= f) = .error e)
    (hf : ∀ a, f a ≠ .error e) : x = .error e := by
  rcases bind_eq_error.mp h with h | ⟨a, -, ha⟩
  · exact h
  · exact absurd ha (hf a)

/-- What is done with the result does not matter to a computation that fails. -/
theorem map_eq_error {x : Except ε α} {f : α → β} {e : ε} (h : x.map f = .error e) :
    x = .error e := by
  cases x with
  | error e' => exact congrArg Except.error (Except.error.inj h)
  | ok a => cases h

end Except

/-- `assert!`, `debug_assert!` and their `_eq`/`_ne` forms. -/
def assert (c : Bool) (message : String) : Except Fault Unit :=
  if c then .ok () else .error (.panic message)

@[simp] theorem assert_true (message : String) : assert true message = .ok () := rfl

/-- Addresses of heap cells. -/
abbrev Addr := ℕ

/-- The width of `usize`: at least 16 bits on every target. -/
structure PointerWidth where
  bits : ℕ
  le_bits : 16 ≤ bits

namespace PointerWidth

/-- The 32-bit targets. -/
def w32 : PointerWidth := ⟨32, by decide⟩

/-- The 64-bit targets. -/
def w64 : PointerWidth := ⟨64, by decide⟩

variable (P : PointerWidth)

/-- `usize::MAX`. -/
def usizeMax : ℕ := 2 ^ P.bits - 1

/-- `a + b`, wrapping. -/
def add (a b : ℕ) : ℕ := (a + b) % 2 ^ P.bits

/-- `a - b`, wrapping, for `b` in range. -/
def sub (a b : ℕ) : ℕ := (a + (2 ^ P.bits - b)) % 2 ^ P.bits

/-- `a << k`: the high bits are dropped. -/
def shl (a k : ℕ) : ℕ := (a <<< k) % 2 ^ P.bits

theorem sub_eq {a b : ℕ} (hb : b ≤ a) (ha : a < 2 ^ P.bits) : P.sub a b = a - b := by
  have h : a + (2 ^ P.bits - b) = a - b + 2 ^ P.bits := by omega
  rw [sub, h, Nat.add_mod_right, Nat.mod_eq_of_lt (by omega)]

theorem shl_one_eq {a : ℕ} (h : 2 * a < 2 ^ P.bits) : P.shl a 1 = 2 * a := by
  rw [shl, Nat.shiftLeft_eq, Nat.pow_one, Nat.mul_comm, Nat.mod_eq_of_lt h]

end PointerWidth

end LocalSync
