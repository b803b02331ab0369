/-
  `WakeList` of `wake_list.rs`: the batch of at most 32 wakers that
  `add_permits` fills before it wakes them.

  The array with its fill index is the list of the wakers it holds; the bound
  on its length is part of the type, so the `assert!` of `wake_all` is not a
  branch of the model.  Only `push` can fail.
-/
import LocalSync.Basic

namespace LocalSync

/-- The wakers of an executor.  The code only ever clones, compares and wakes them. -/
class Waker (W : Type) where
  /-- The tasks of the executor. -/
  Task : Type
  /-- The task that waking a waker wakes. -/
  task : W → Task
  /-- `Waker::will_wake`. -/
  willWake : W → W → Bool
  /-- A waker that would wake another one wakes its task. -/
  task_eq : ∀ w w', willWake w w' = true → task w = task w'

/-- Wakers that are the numbers of their tasks. -/
instance : Waker ℕ where
  Task := ℕ
  task w := w
  willWake w w' := w == w'
  task_eq _ _ h := eq_of_beq h

/-- `NUM_WAKERS`. -/
def numWakers : ℕ := 32

/-- `WakeList`: the wakers in the array, in the order they were pushed. -/
structure WakeList (A : Type) where
  inner : List A
  length_le : inner.length ≤ numWakers

namespace WakeList

variable {A : Type}

/-- `WakeList::new`. -/
def new : WakeList A := ⟨[], Nat.zero_le _⟩

/-- `WakeList::can_push`. -/
def canPush (w : WakeList A) : Bool := w.inner.length < numWakers

/-- `WakeList::push`. -/
def push (w : WakeList A) (val : A) : Except Fault (WakeList A) :=
  if h : w.inner.length < numWakers then
    .ok ⟨w.inner ++ [val], by rw [List.length_append, List.length_singleton]; exact h⟩
  else .error (.panic "assertion failed: self.can_push()")

/-- `WakeList::wake_all`: the wakers in the order they are woken, the last one first.  The list is
empty afterwards. -/
def wakeAll (w : WakeList A) : List A := w.inner.reverse

theorem push_eq {w : WakeList A} (h : w.canPush = true) (val : A) :
    ∃ w', w.push val = .ok w' ∧ w'.inner = w.inner ++ [val] := by
  rw [canPush, decide_eq_true_eq] at h
  exact ⟨_, dite_cond_eq_true (eq_true h), rfl⟩

end WakeList

end LocalSync
