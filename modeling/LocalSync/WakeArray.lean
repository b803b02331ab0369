/-
  `WakeList` of `wake_list.rs` in memory: 32 slots and a fill index.

  A slot is `none` when there is no waker to be read from it: it has not been
  written, or its waker has been moved out, and to read it is a fault.  The code
  of a waker may panic when it is woken.  The list is then dropped while the
  stack unwinds, with the wakers that are left.
-/
import LocalSync.WakeList
import Mathlib.Data.List.FinRange
import Mathlib.Logic.Function.Basic

namespace LocalSync

/-- `WakeList`. -/
structure WakeArray (A : Type) where
  inner : Fin numWakers → Option A
  curr : ℕ

namespace WakeArray

variable {A : Type}

/-- `WakeList::new`. -/
def new : WakeArray A := { inner := fun _ => none, curr := 0 }

/-- `WakeList::can_push`. -/
def canPush (w : WakeArray A) : Bool := w.curr < numWakers

/-- The slot at an index. -/
def slot (i : ℕ) : Except Fault (Fin numWakers) :=
  if h : i < numWakers then .ok ⟨i, h⟩ else .error (.panic "index out of bounds")

/-- `WakeList::push`. -/
def push (w : WakeArray A) (val : A) : Except Fault (WakeArray A) := do
  assert w.canPush "assertion failed: self.can_push()"
  let i ← slot w.curr
  pure { inner := Function.update w.inner i (some val), curr := w.curr + 1 }

/-- `ptr::read`: the waker is moved out of its slot. -/
def read (w : WakeArray A) (i : ℕ) : Except Fault (A × WakeArray A) := do
  let i ← slot i
  match w.inner i with
  | some waker => pure (waker, { w with inner := Function.update w.inner i none })
  | none => .error .uninit

/-- The loop of `wake_all`, when `curr` is `n`: the wakers that are woken, and whether the loop has
come to its end.  If the code of a waker panics, it has not. -/
def wakeLoop (wakes : A → Bool) : ℕ → WakeArray A → Except Fault ((List A × Bool) × WakeArray A)
  | 0, w => .ok (([], true), w)
  | n + 1, w => do
    let (waker, w) ← { w with curr := n }.read n
    if wakes waker then do
      let ((woken, done), w) ← wakeLoop wakes n w
      pure ((waker :: woken, done), w)
    else pure (([waker], false), w)

/-- `WakeList::wake_all`. -/
def wakeAll (w : WakeArray A) (wakes : A → Bool) :
    Except Fault ((List A × Bool) × WakeArray A) := do
  assert (w.curr ≤ numWakers) "assertion failed: self.curr <= NUM_WAKERS"
  w.wakeLoop wakes w.curr

/-- Drop the wakers in the first `n` slots, in their order. -/
def dropSlots : ℕ → WakeArray A → Except Fault (List A × WakeArray A)
  | 0, w => .ok ([], w)
  | n + 1, w => do
    let (dropped, w) ← dropSlots n w
    let (waker, w) ← w.read n
    pure (dropped ++ [waker], w)

/-- `WakeList::drop`. -/
def drop (w : WakeArray A) : Except Fault (List A × WakeArray A) := dropSlots w.curr w

/-- A wake list on the stack. -/
structure Frame (L : Type) where
  list : L
  /-- It has not been dropped. -/
  alive : Bool

/-- What is done with a wake list. -/
inductive Action (A : Type) where
  | push (val : A)
  /-- `wake_all`; the code of a waker panics unless it `wakes`. -/
  | wakeAll (wakes : A → Bool)
  /-- The end of its scope. -/
  | drop

/-- What comes of it. -/
inductive Answer (A : Type) where
  | unit
  | woken (wakers : List A)
  /-- The last one of the `wakers` has panicked, and the others have been `dropped`. -/
  | unwound (wakers dropped : List A)
  | dropped (wakers : List A)
  deriving DecidableEq

/-- Run one step. -/
def exec (s : Frame (WakeArray A)) : Action A → Except Fault (Answer A × Frame (WakeArray A))
  | .push val => do
    let list ← s.list.push val
    pure (.unit, { s with list })
  | .wakeAll wakes => do
    let ((woken, done), list) ← s.list.wakeAll wakes
    if done then pure (.woken woken, { s with list })
    else do
      let (dropped, list) ← list.drop
      pure (.unwound woken dropped, { list, alive := false })
  | .drop => do
    let (dropped, list) ← s.list.drop
    pure (.dropped dropped, { list, alive := false })

/-- The wakers that come in with a step. -/
def pushed : Action A → List A
  | .push val => [val]
  | _ => []

/-- The wakers that are woken or dropped with a step. -/
def gone : Answer A → List A
  | .unit => []
  | .woken wakers => wakers
  | .unwound wakers dropped => wakers ++ dropped
  | .dropped wakers => wakers

/-- The wakers in the array, as long as there is one. -/
def held (s : Frame (WakeArray A)) : List A :=
  if s.alive then (List.finRange numWakers).filterMap s.list.inner else []

/-- Only a list that is alive is used, and nobody pushes to a full one. -/
def Allowed (s : Frame (WakeArray A)) : Action A → Prop
  | .push _ => s.alive = true ∧ s.list.canPush = true
  | _ => s.alive = true

instance (s : Frame (WakeArray A)) (c : Action A) : Decidable (Allowed s c) := by
  cases c <;> unfold Allowed <;> infer_instance

/-- One step. -/
def Step (s : Frame (WakeArray A)) (e : Action A × Answer A) (t : Frame (WakeArray A)) : Prop :=
  Allowed s e.1 ∧ exec s e.1 = .ok (e.2, t)

end WakeArray

/-! ### The same with a list -/

namespace WakeList

open WakeArray (Frame Action Answer)

variable {A : Type}

/-- What `wake_all` comes to: from the last waker on, until the code of one of them panics. -/
def wakeUntil (w : WakeList A) (wakes : A → Bool) : Answer A :=
  match w.wakeAll.dropWhile wakes with
  | [] => .woken w.wakeAll
  | waker :: rest => .unwound (w.wakeAll.takeWhile wakes ++ [waker]) rest.reverse

/-- One step. -/
def exec (s : Frame (WakeList A)) : Action A → Answer A × Frame (WakeList A)
  | .push val =>
    match s.list.push val with
    | .ok list => (.unit, { s with list })
    | .error _ => (.unit, s)
  | .wakeAll wakes =>
    match s.list.wakeUntil wakes with
    | .woken wakers => (.woken wakers, { s with list := .new })
    | o => (o, { list := .new, alive := false })
  | .drop => (.dropped s.list.inner, { list := .new, alive := false })

/-- The wakers in the list, as long as there is a list. -/
def held (s : Frame (WakeList A)) : List A := if s.alive then s.list.inner else []

/-- Only a list that is alive is used, and nobody pushes to a full one. -/
def Allowed (s : Frame (WakeList A)) : Action A → Prop
  | .push _ => s.alive = true ∧ s.list.canPush = true
  | _ => s.alive = true

/-- One step. -/
def Step (s : Frame (WakeList A)) (e : Action A × Answer A) (t : Frame (WakeList A)) : Prop :=
  Allowed s e.1 ∧ exec s e.1 = (e.2, t)

end WakeList

end LocalSync
