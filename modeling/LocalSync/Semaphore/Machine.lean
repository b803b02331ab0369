/-
  What the public `Semaphore` is for, in the hands of its clients: the fair
  semaphore, the guards they hold, and the futures that have returned.

  A machine has no packed counter, no pointers, no batches and no clock, and its
  calls are a total function.  What its clients may do is written in the terms
  of the machine alone: a future is created at a free address and not polled
  again after it has returned, and no more permits are added than the limit
  allows.
-/
import LocalSync.Semaphore.Fair
import LocalSync.Semaphore.System

namespace LocalSync.Semaphore

open Lib

/-- The fair semaphore and what its clients hold. -/
structure Machine (W : Type) where
  fair : Fair W
  /-- The live futures that have returned. -/
  returned : Finset Addr
  /-- The live guards. -/
  permits : Store ℕ UInt32

namespace Machine

variable {W : Type}

/-- An open semaphore with `available` permits. -/
def new (W : Type) (available : ℕ) : Machine W :=
  { fair := Fair.new W available, returned := ∅, permits := Store.empty }

/-- All permits in circulation. -/
def total (m : Machine W) : ℕ := m.fair.inside + m.permits.sum UInt32.toNat

/-- A new guard for `n` permits. -/
def grant (m : Machine W) (n : UInt32) : ℕ × Machine W :=
  (m.permits.fresh, { m with permits := m.permits.insert m.permits.fresh n })

/-- The permits that the request at `i` asks for. -/
def size (m : Machine W) (i : Addr) : UInt32 := (m.fair.sizes.get? i).getD 0

/-- Poll the future at `i`: with the answer `Ready` it has returned. -/
def poll [Waker W] (m : Machine W) (i : Addr) (cx : W) :
    Poll (Except AcquireError ℕ) × Machine W :=
  match m.fair.poll i cx with
  | (.pending, fair) => (.pending, { m with fair })
  | (.ready (.error e), fair) =>
    (.ready (.error e), { m with fair, returned := insert i m.returned })
  | (.ready (.ok ()), fair) =>
    let (p, t) := { m with fair, returned := insert i m.returned }.grant (m.size i)
    (.ready (.ok p), t)

/-- Take `n` permits, if nobody has to wait for them. -/
def tryAcquireMany (m : Machine W) (n : UInt32) : Except TryAcquireError ℕ × Machine W :=
  match m.fair.tryAcquire n with
  | (.ok (), fair) =>
    let (p, t) := { m with fair }.grant n
    (.ok p, t)
  | (.error e, fair) => (.error e, { m with fair })

/-- One call. -/
def exec [Waker W] (m : Machine W) : Action W → Output × Machine W
  | .addPermits n => (.unit, { m with fair := m.fair.release n })
  | .acquireMany i n => (.unit, { m with fair := m.fair.acquire i n })
  | .poll i cx => (.polled (m.poll i cx).1, (m.poll i cx).2)
  | .dropAcquire i =>
    (.unit, { m with fair := m.fair.cancel i, returned := m.returned.erase i })
  | .tryAcquireMany n => (.tried (m.tryAcquireMany n).1, (m.tryAcquireMany n).2)
  | .dropPermit p =>
    (.unit, { m with
      fair := m.fair.release ((m.permits.get? p).elim 0 UInt32.toNat)
      permits := m.permits.erase p })
  | .forget p => (.unit, { m with permits := m.permits.erase p })
  | .close => (.unit, { m with fair := m.fair.close })

/-- What clients may do. -/
def Allowed (m : Machine W) : Action W → Prop
  | .acquireMany i _ => m.fair.requests.get? i = none
  | .poll i _ => (m.fair.requests.get? i).isSome = true ∧ i ∉ m.returned
  | .dropAcquire i => (m.fair.requests.get? i).isSome = true
  | .dropPermit p => (m.permits.get? p).isSome = true
  | .forget p => (m.permits.get? p).isSome = true
  | _ => True

/-- What they may do with at most `limit` permits in circulation. -/
def Within (limit : ℕ) (m : Machine W) (c : Action W) : Prop :=
  m.Allowed c ∧ m.total + c.amount ≤ limit

/-- One step. -/
def Step [Waker W] (limit : ℕ) (m : Machine W) (e : Action W × Output) (t : Machine W) : Prop :=
  m.Within limit e.1 ∧ m.exec e.1 = (e.2, t)

end Machine

end LocalSync.Semaphore
