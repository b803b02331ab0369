/-
  The public `Semaphore` with its clients: a transition system.

  The state adds to the low-level semaphore what its clients hold, the
  `AcquireResult` futures and the `SemaphorePermit` guards, and two counters
  for the permits that entered and left for good.  An action is one call by one
  client; any number of clients may act in any order, so a run of the system is
  any interleaving of their calls.

  `Allowed` is what the type system and the contract of `Future` give: a future
  is created in free memory, only live objects are used, and no future is
  polled again after it returned `Ready`.  A call that faults has no successor.
-/
import LocalSync.Lib.Run
import LocalSync.Semaphore.History

namespace LocalSync.Semaphore

open Lib

variable {P : PointerWidth} {W : Type}

/-- The permits set aside for a future whose `queued` flag is set. -/
def Acquire.held (q : Acquire W) : ℕ :=
  if q.queued then q.numPermits.toNat - q.node.state else 0

/-- The semaphore and what its clients hold. -/
structure System (P : PointerWidth) (W : Type) where
  sem : Tracked P W
  /-- The number that each live `AcquireResult` carries beside its `Acquire`. -/
  results : Store Addr UInt32
  /-- The live `SemaphorePermit`s. -/
  permits : Store ℕ UInt32
  /-- The permits added so far. -/
  added : ℕ
  /-- The permits forgotten so far. -/
  forgotten : ℕ

/-- One call by a client. -/
inductive Action (W : Type) where
  | addPermits (n : ℕ)
  | acquireMany (i : Addr) (n : UInt32)
  | poll (i : Addr) (cx : W)
  | dropAcquire (i : Addr)
  | tryAcquireMany (n : UInt32)
  | dropPermit (p : ℕ)
  | forget (p : ℕ)
  | close

/-- What a call returns; a permit is named by its address. -/
inductive Output where
  | unit
  | polled (result : Poll (Except AcquireError ℕ))
  | tried (result : Except TryAcquireError ℕ)

/-- The amount an action adds from outside. -/
def Action.amount : Action W → ℕ
  | .addPermits n => n
  | _ => 0

namespace System

/-- `Semaphore::new`. -/
def new (P : PointerWidth) (W : Type) (permits : ℕ) : System P W :=
  { sem := Tracked.new P W permits
    results := Store.empty
    permits := Store.empty
    added := 0
    forgotten := 0 }

/-- A new guard for `n` permits. -/
def grant (s : System P W) (n : UInt32) : ℕ × System P W :=
  (s.permits.fresh, { s with permits := s.permits.insert s.permits.fresh n })

/-- `Semaphore::add_permits`. -/
def addPermits (s : System P W) (n : ℕ) : Inner.Outcome P W (System P W) := do
  let sem ← s.sem.release n
  pure { s with sem, added := s.added + n }

/-- `Semaphore::acquire_many`; `Semaphore::acquire` asks for one permit. -/
def acquireMany (s : System P W) (i : Addr) (n : UInt32) : System P W :=
  { s with sem := s.sem.acquire i n, results := s.results.insert i n }

/-- `AcquireResult::poll`. -/
def poll [Waker W] (s : System P W) (i : Addr) (cx : W) :
    Inner.Outcome P W (Poll (Except AcquireError ℕ) × System P W) := do
  match s.results.get? i with
  | none => .error ⟨.dangling, s.sem.inner⟩
  | some permits => do
    match ← s.sem.poll i cx with
    | (.pending, sem) => pure (.pending, { s with sem })
    | (.ready (.error e), sem) => pure (.ready (.error e), { s with sem })
    | (.ready (.ok ()), sem) =>
      let (p, s) := { s with sem }.grant permits
      pure (.ready (.ok p), s)

/-- The drop of an `AcquireResult`. -/
def dropAcquire (s : System P W) (i : Addr) : Inner.Outcome P W (System P W) := do
  let sem ← s.sem.drop i
  pure { s with sem, results := s.results.erase i }

/-- `Semaphore::try_acquire_many`; `Semaphore::try_acquire` asks for one permit. -/
def tryAcquireMany (s : System P W) (n : UInt32) :
    Inner.Outcome P W (Except TryAcquireError ℕ × System P W) := do
  match ← s.sem.tryAcquire n with
  | (.ok (), sem) =>
    let (p, s) := { s with sem }.grant n
    pure (.ok p, s)
  | (.error e, sem) => pure (.error e, { s with sem })

/-- `SemaphorePermit::drop`. -/
def dropPermit (s : System P W) (p : ℕ) : Inner.Outcome P W (System P W) := do
  match s.permits.get? p with
  | none => .error ⟨.dangling, s.sem.inner⟩
  | some permits =>
    let sem ← s.sem.release permits.toNat
    pure { s with sem, permits := s.permits.erase p }

/-- `SemaphorePermit::forget`: the permits are gone before the guard is dropped. -/
def forget (s : System P W) (p : ℕ) : Inner.Outcome P W (System P W) :=
  { s with
    permits := s.permits.modify p fun _ => 0
    forgotten := s.forgotten + (s.permits.get? p).elim 0 UInt32.toNat }.dropPermit p

/-- `Semaphore::close`. -/
def close (s : System P W) : Inner.Outcome P W (System P W) := do
  let sem ← s.sem.close
  pure { s with sem }

/-- Run one call. -/
def exec [Waker W] (s : System P W) : Action W → Inner.Outcome P W (Output × System P W)
  | .addPermits n => do pure (.unit, ← s.addPermits n)
  | .acquireMany i n => pure (.unit, s.acquireMany i n)
  | .poll i cx => do
    let (result, s) ← s.poll i cx
    pure (.polled result, s)
  | .dropAcquire i => do pure (.unit, ← s.dropAcquire i)
  | .tryAcquireMany n => do
    let (result, s) ← s.tryAcquireMany n
    pure (.tried result, s)
  | .dropPermit p => do pure (.unit, ← s.dropPermit p)
  | .forget p => do pure (.unit, ← s.forget p)
  | .close => do pure (.unit, ← s.close)

/-- What clients may do. -/
def Allowed (s : System P W) : Action W → Prop
  | .acquireMany i _ => s.sem.inner.acquires.get? i = none
  | .poll i _ =>
    (s.sem.inner.acquires.get? i).isSome = true ∧ (s.sem.history.track i).finished = false
  | .dropAcquire i => (s.sem.inner.acquires.get? i).isSome = true
  | .dropPermit p => (s.permits.get? p).isSome = true
  | .forget p => (s.permits.get? p).isSome = true
  | _ => True

/-- One step: a client makes an allowed call. -/
def Step [Waker W] (s : System P W) (e : Action W × Output) (t : System P W) : Prop :=
  s.Allowed e.1 ∧ s.exec e.1 = .ok (e.2, t)

/-- All permits in circulation: in the counter, in the guards, and set aside for futures. -/
def total (s : System P W) : ℕ :=
  s.sem.inner.availablePermits + s.permits.sum UInt32.toNat + s.sem.inner.acquires.sum Acquire.held

instance (s : System P W) (c : Action W) : Decidable (s.Allowed c) := by
  cases c <;> unfold Allowed <;> infer_instance

/-- Make a call, if it is allowed and does not fault. -/
def call [Waker W] : System P W → Action W → Option (Output × System P W) := attempt Allowed exec

theorem step_of_call [Waker W] (s : System P W) (c : Action W) (o : Output) (t : System P W)
    (h : s.call c = some (o, t)) : s.Step (c, o) t := of_attempt h

/-- A step that adds permits only up to the documented maximum. -/
def BoundedStep [Waker W] (s : System P W) (e : Action W × Output) (t : System P W) : Prop :=
  s.Step e t ∧ s.total + e.1.amount ≤ Inner.maxPermits P

/-- Make a call, if it also stays within the maximum. -/
def boundedCall [Waker W] (s : System P W) (c : Action W) : Option (Output × System P W) :=
  if s.total + c.amount ≤ Inner.maxPermits P then s.call c else none

theorem boundedStep_of_boundedCall [Waker W] (s : System P W) (c : Action W) (o : Output)
    (t : System P W) (h : s.boundedCall c = some (o, t)) : s.BoundedStep (c, o) t := by
  unfold boundedCall at h
  split_ifs at h with hmax
  exact ⟨step_of_call s c o t h, hmax⟩

end System

end LocalSync.Semaphore
