/-
  The `Semaphore` behind an `Rc`: `acquire_owned`, `try_acquire_owned` and the
  `OwnedSemaphorePermit`.

  Each of these takes an `Rc<Semaphore>` by value and passes it on.  A handle
  becomes a future, the future becomes a permit, and whoever ends without a
  permit drops the `Rc`.  So there is one store of holders, where a holder stays
  at its address while it changes, and each holder is one strong reference.

  A holder that is dropped does its own part first, takes its future out of the
  wait list or gives its permits back, and drops the `Rc` after it; the last one
  drops the semaphore.
-/
import LocalSync.Rc
import LocalSync.Semaphore.System

namespace LocalSync.Semaphore

open Lib

variable {P : PointerWidth} {W : Type}

/-- `acquire(n).await`, from its start or from where it is suspended: the future, at address `i`, is
created at the first poll and dropped as soon as it returns. -/
def Tracked.awaitMany [Waker W] (x : Tracked P W) (i : Addr) (n : UInt32) (first : Bool) (cx : W) :
    Inner.Outcome P W (Poll (Except AcquireError Unit) × Tracked P W) := do
  match ← (if first then x.acquire i n else x).poll i cx with
  | (.pending, x) => pure (.pending, x)
  | (.ready r, x) => do
    let x ← x.drop i
    pure (.ready r, x)

/-- Who holds an `Rc<Semaphore>`. -/
inductive Holder where
  /-- A plain handle. -/
  | handle
  /-- The future of `acquire_many_owned`, which has not been polled. -/
  | unresumed (n : UInt32)
  /-- The same future, which awaits its permits. -/
  | suspended (n : UInt32)
  /-- An `OwnedSemaphorePermit`. -/
  | permit (permits : UInt32)
  deriving DecidableEq, Repr

/-- The permits in a guard. -/
def Holder.permits : Holder → ℕ
  | .permit permits => permits.toNat
  | _ => 0

/-- The holder is a future. -/
def Holder.isFuture : Holder → Bool
  | .unresumed _ => true
  | .suspended _ => true
  | _ => false

/-- The holder is a guard. -/
def Holder.isPermit : Holder → Bool
  | .permit _ => true
  | _ => false

/-- A shared semaphore with its holders. -/
structure Owned (P : PointerWidth) (W : Type) where
  rc : Rc (Tracked P W)
  holders : Store Addr Holder
  /-- The permits added so far. -/
  added : ℕ
  /-- The permits forgotten so far. -/
  forgotten : ℕ

namespace Owned

/-- One call by a holder. -/
inductive Action (W : Type) where
  /-- `Rc::clone`: `new` is the address of the new handle. -/
  | clone (h new : Addr)
  | addPermits (h : Addr) (n : ℕ)
  | close (h : Addr)
  | acquireManyOwned (h : Addr) (n : UInt32)
  | tryAcquireManyOwned (h : Addr) (n : UInt32)
  | poll (i : Addr) (cx : W)
  | forget (i : Addr)
  | drop (i : Addr)

/-- The amount an action adds from outside. -/
def Action.amount : Action W → ℕ
  | .addPermits _ n => n
  | _ => 0

/-- `Rc::new(Semaphore::new(permits))`: the first handle is at address 0. -/
def new (P : PointerWidth) (W : Type) (permits : ℕ) : Owned P W :=
  { rc := Rc.new (Tracked.new P W permits)
    holders := Store.empty.insert 0 .handle
    added := 0
    forgotten := 0 }

/-- The holder at `i` drops its `Rc`, and is gone. -/
def dropRc (s : Owned P W) (i : Addr) : Owned P W :=
  { s with rc := s.rc.drop, holders := s.holders.erase i }

/-- The holder at `i`, with the semaphore changed to `sem`, becomes `holder`. -/
def become (s : Owned P W) (sem : Tracked P W) (i : Addr) (holder : Holder) : Owned P W :=
  { s with rc := s.rc.set sem, holders := s.holders.insert i holder }

/-- `Rc::clone`. -/
def clone (s : Owned P W) (new : Addr) : Owned P W :=
  { s with rc := s.rc.clone, holders := s.holders.insert new .handle }

/-- `Semaphore::add_permits`. -/
def addPermits (s : Owned P W) (n : ℕ) : Except Fault (Owned P W) := do
  let sem ← s.rc.deref
  let sem ← (sem.release n).fault
  pure { s with rc := s.rc.set sem, added := s.added + n }

/-- `Semaphore::close`. -/
def close (s : Owned P W) : Except Fault (Owned P W) := do
  let sem ← s.rc.deref
  let sem ← sem.close.fault
  pure { s with rc := s.rc.set sem }

/-- `Semaphore::acquire_many_owned`: the future is created, and does nothing before it is polled. -/
def acquireManyOwned (s : Owned P W) (h : Addr) (n : UInt32) : Owned P W :=
  { s with holders := s.holders.insert h (.unresumed n) }

/-- `Semaphore::acquire_owned`. -/
def acquireOwned (s : Owned P W) (h : Addr) : Owned P W := s.acquireManyOwned h 1

/-- `Semaphore::try_acquire_many_owned`. -/
def tryAcquireManyOwned (s : Owned P W) (h : Addr) (n : UInt32) :
    Except Fault (Except TryAcquireError Addr × Owned P W) := do
  let sem ← s.rc.deref
  match ← (sem.tryAcquire n).fault with
  | (.ok (), sem) => pure (.ok h, s.become sem h (.permit n))
  | (.error e, sem) => pure (.error e, { s with rc := s.rc.set sem }.dropRc h)

/-- `Semaphore::try_acquire_owned`. -/
def tryAcquireOwned (s : Owned P W) (h : Addr) :
    Except Fault (Except TryAcquireError Addr × Owned P W) := s.tryAcquireManyOwned h 1

/-- The body of `acquire_many_owned`, from the start or from where it is suspended. -/
def resume [Waker W] (s : Owned P W) (i : Addr) (n : UInt32) (first : Bool) (cx : W) :
    Except Fault (Poll (Except AcquireError Addr) × Owned P W) := do
  let sem ← s.rc.deref
  match ← (sem.awaitMany i n first cx).fault with
  | (.pending, sem) => pure (.pending, s.become sem i (.suspended n))
  | (.ready (.error e), sem) => pure (.ready (.error e), { s with rc := s.rc.set sem }.dropRc i)
  | (.ready (.ok ()), sem) => pure (.ready (.ok i), s.become sem i (.permit n))

/-- The poll of the future at `i`. -/
def poll [Waker W] (s : Owned P W) (i : Addr) (cx : W) :
    Except Fault (Poll (Except AcquireError Addr) × Owned P W) :=
  match s.holders.get? i with
  | some (.unresumed n) => s.resume i n true cx
  | some (.suspended n) => s.resume i n false cx
  | _ => .error .dangling

/-- The drop of a holder, whatever it is. -/
def drop (s : Owned P W) (i : Addr) : Except Fault (Owned P W) := do
  match s.holders.get? i with
  | none => .error .dangling
  | some .handle => pure (s.dropRc i)
  | some (.unresumed _) => pure (s.dropRc i)
  | some (.suspended _) =>
    let sem ← s.rc.deref
    let sem ← (sem.drop i).fault
    pure ({ s with rc := s.rc.set sem }.dropRc i)
  | some (.permit permits) =>
    let sem ← s.rc.deref
    let sem ← (sem.release permits.toNat).fault
    pure ({ s with rc := s.rc.set sem }.dropRc i)

/-- `OwnedSemaphorePermit::forget`: the permits are gone before the guard is dropped. -/
def forget (s : Owned P W) (i : Addr) : Except Fault (Owned P W) :=
  { s with
    holders := s.holders.modify i fun _ => .permit 0
    forgotten := s.forgotten + (s.holders.get? i).elim 0 Holder.permits }.drop i

/-- Run one call. -/
def exec [Waker W] (s : Owned P W) : Action W → Except Fault (Output × Owned P W)
  | .clone _ new => pure (.unit, s.clone new)
  | .addPermits _ n => do pure (.unit, ← s.addPermits n)
  | .close _ => do pure (.unit, ← s.close)
  | .acquireManyOwned h n => pure (.unit, s.acquireManyOwned h n)
  | .tryAcquireManyOwned h n => do
    let (result, s) ← s.tryAcquireManyOwned h n
    pure (.tried result, s)
  | .poll i cx => do
    let (result, s) ← s.poll i cx
    pure (.polled result, s)
  | .forget i => do pure (.unit, ← s.forget i)
  | .drop i => do pure (.unit, ← s.drop i)

/-- What holders may do: a call needs a holder of the right kind, and a new one needs free
memory. -/
def Allowed (s : Owned P W) : Action W → Prop
  | .clone h new => s.holders.get? h = some .handle ∧ s.holders.get? new = none
  | .addPermits h _ => s.holders.get? h = some .handle
  | .close h => s.holders.get? h = some .handle
  | .acquireManyOwned h _ => s.holders.get? h = some .handle
  | .tryAcquireManyOwned h _ => s.holders.get? h = some .handle
  | .poll i _ => (s.holders.get? i).any Holder.isFuture = true
  | .forget i => (s.holders.get? i).any Holder.isPermit = true
  | .drop i => (s.holders.get? i).isSome = true

instance (s : Owned P W) (c : Action W) : Decidable (s.Allowed c) := by
  cases c <;> unfold Allowed <;> infer_instance

/-- All permits in circulation: in the counter, in the guards, and set aside for futures. -/
def total (s : Owned P W) : ℕ :=
  s.rc.value.inner.availablePermits + s.holders.sum Holder.permits +
    s.rc.value.inner.acquires.sum Acquire.held

/-- One step: a holder makes an allowed call. -/
def Step [Waker W] (s : Owned P W) (e : Action W × Output) (t : Owned P W) : Prop :=
  s.Allowed e.1 ∧ s.exec e.1 = .ok (e.2, t)

/-- A step that adds permits only up to the documented maximum. -/
def BoundedStep [Waker W] (s : Owned P W) (e : Action W × Output) (t : Owned P W) : Prop :=
  s.Step e t ∧ s.total + e.1.amount ≤ Inner.maxPermits P

/-- Make a call, if it is allowed, stays within the maximum and does not fault. -/
def boundedCall [Waker W] (s : Owned P W) (c : Action W) : Option (Output × Owned P W) :=
  if s.total + c.amount ≤ Inner.maxPermits P then attempt Allowed exec s c else none

theorem boundedStep_of_boundedCall [Waker W] (s : Owned P W) (c : Action W) (o : Output)
    (t : Owned P W) (h : s.boundedCall c = some (o, t)) : s.BoundedStep (c, o) t := by
  unfold boundedCall at h
  split_ifs at h with hmax
  exact ⟨of_attempt h, hmax⟩

end Owned

end LocalSync.Semaphore
