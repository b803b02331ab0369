/-
  The low-level semaphore of `semaphore.rs`: `Inner` and the `Acquire` futures.

  The state holds the packed permit counter, the wait list and the memory of
  the live `Acquire` futures, whose embedded nodes the wait list links.  The
  wakers that have been woken are recorded in `woken`, each with the node it
  was taken from; nothing reads this log.

  The bodies follow the source statement by statement.  A loop carries fuel,
  and a failed assertion returns the state that unwinding leaves behind: what
  has been written so far, without the locals.
-/
import LocalSync.LinkedList
import LocalSync.WakeList

namespace LocalSync

open Lib

/-- `std::task::Poll`. -/
inductive Poll (α : Type) where
  | ready (value : α)
  | pending
  deriving DecidableEq, Repr

/-- `Poll::is_pending`. -/
def Poll.isPending {α : Type} : Poll α → Bool
  | .ready _ => false
  | .pending => true

namespace Semaphore

/-- `AcquireError`: the semaphore is closed. -/
inductive AcquireError where
  | closed
  deriving DecidableEq, Repr

/-- `TryAcquireError`. -/
inductive TryAcquireError where
  | closed
  | noPermits
  deriving DecidableEq, Repr

/-- `Waiter`: the node of the wait list. -/
structure Waiter (W : Type) where
  /-- The number of remaining permits required by the waiter. -/
  state : ℕ
  /-- The waker to notify the task awaiting permits. -/
  waker : Option W
  /-- Intrusive linked-list pointers. -/
  pointers : Pointers

/-- `Acquire`: the future, with the node embedded in it. -/
structure Acquire (W : Type) where
  node : Waiter W
  numPermits : UInt32
  queued : Bool

/-- `Waitlist`. -/
structure Waitlist where
  queue : LinkedList
  closed : Bool

/-- `Inner`, with the memory of the `Acquire` futures that borrow it. -/
structure Inner (P : PointerWidth) (W : Type) where
  waiters : Waitlist
  /-- The packed counter: the available permits above the closed bit. -/
  permits : ℕ
  /-- The live `Acquire` futures. -/
  acquires : Store Addr (Acquire W)
  /-- The wakers woken so far, each with the node it was taken from. -/
  woken : List (Addr × W)

variable {P : PointerWidth} {W : Type}

/-- The wakers that a log of wake-ups took from the node at `i`. -/
def wakesOf (i : Addr) (log : List (Addr × W)) : List W :=
  log.filterMap fun e => if e.1 = i then some e.2 else none

/-- `impl Link for Waiter`: the node lives inside its future. -/
instance : Link (Acquire W) where
  pointers q := q.node.pointers
  setPointers q p := { q with node := { q.node with pointers := p } }
  pointers_setPointers _ _ := rfl

/-- `Waiter::new`. -/
def Waiter.new (numPermits : UInt32) : Waiter W :=
  { state := numPermits.toNat, waker := none, pointers := Pointers.new }

/-- `Waiter::assign_permits`: the waiter and `n` after the assignment, and whether the waiter
should be removed from the queue. -/
def Waiter.assignPermits (w : Waiter W) (n : ℕ) : Waiter W × ℕ × Bool :=
  let assign := min w.state n
  ({ w with state := w.state - assign }, n - assign, w.state - assign == 0)

/-- `waker.as_ref().map(|waker| !waker.will_wake(cx.waker())).unwrap_or(true)`, and the
replacement it asks for. -/
def Waiter.register [Waker W] (cx : W) (n : Waiter W) : Waiter W :=
  if (n.waker.map fun waker => !Waker.willWake waker cx).getD true then
    { n with waker := some cx }
  else n

/-- `Acquire::new`. -/
def Acquire.new (numPermits : UInt32) : Acquire W :=
  { node := Waiter.new numPermits, numPermits, queued := false }

namespace Inner

/-- What an operation on the semaphore ends in: a value, or a panic that unwinds. -/
abbrev Outcome (P : PointerWidth) (W : Type) : Type → Type := Except (Unwind (Inner P W))

/-- The fault of an operation, without the state that unwinding leaves behind. -/
def Outcome.fault {α : Type} (x : Outcome P W α) : Except Fault α := x.mapError Unwind.fault

@[simp] theorem fault_ok {α : Type} (a : α) : Outcome.fault (.ok a : Outcome P W α) = .ok a := rfl

theorem fault_eq_ok {α : Type} {x : Outcome P W α} {y : α} : x.fault = .ok y ↔ x = .ok y := by
  cases x <;> simp [Outcome.fault, Except.mapError]

/-- `Inner::MAX_PERMITS`. -/
def maxPermits (P : PointerWidth) : ℕ := P.usizeMax >>> 3

/-- `Inner::CLOSED`. -/
def closed : ℕ := 1

/-- `Inner::PERMIT_SHIFT`. -/
def permitShift : ℕ := 1

/-! ### Access to the memory of the futures -/

/-- The future at address `a`. -/
def deref (s : Inner P W) (a : Addr) : Outcome P W (Acquire W) :=
  match s.acquires.get? a with
  | some q => .ok q
  | none => .error ⟨.dangling, s⟩

/-- Change the node at address `a` in place. -/
def updateNode (s : Inner P W) (a : Addr) (f : Waiter W → Waiter W) : Inner P W :=
  { s with acquires := s.acquires.modify a fun q => { q with node := f q.node } }

/-- Set the `queued` flag of the future at address `a`. -/
def setQueued (s : Inner P W) (a : Addr) (queued : Bool) : Inner P W :=
  { s with acquires := s.acquires.modify a fun q => { q with queued } }

/-- Run an operation of the wait list's queue. -/
def onQueue {α : Type} (s : Inner P W)
    (op : LinkedList → Store Addr (Acquire W) →
      Except Fault (α × LinkedList × Store Addr (Acquire W))) : Outcome P W (α × Inner P W) :=
  match op s.waiters.queue s.acquires with
  | .ok (r, queue, acquires) =>
    .ok (r, { s with waiters := { s.waiters with queue }, acquires })
  | .error fault => .error ⟨fault, s⟩

/-- Take the waker out of the node at address `a`. -/
def takeWaker (s : Inner P W) (a : Addr) : Outcome P W (Option W × Inner P W) := do
  let q ← s.deref a
  pure (q.node.waker, s.updateNode a fun n => { n with waker := none })

/-- Wake the wakers `ws`, in this order. -/
def wake (s : Inner P W) (ws : List (Addr × W)) : Inner P W := { s with woken := s.woken ++ ws }

/-! ### The counter -/

/-- `Inner::new`. -/
def new (P : PointerWidth) (W : Type) (permits : ℕ) : Inner P W :=
  let permits := permits &&& maxPermits P
  { waiters := { queue := LinkedList.new, closed := false }
    permits := P.shl permits permitShift
    acquires := Store.empty
    woken := [] }

/-- `Inner::available_permits`. -/
def availablePermits (s : Inner P W) : ℕ := s.permits >>> permitShift

/-- `Inner::is_closed`. -/
def isClosed (s : Inner P W) : Bool := s.permits &&& closed != 0

/-- `Inner::try_acquire`. -/
def tryAcquire (s : Inner P W) (numPermits : UInt32) :
    Outcome P W (Except TryAcquireError Unit × Inner P W) :=
  if numPermits.toNat ≤ maxPermits P then
    let numPermits := P.shl numPermits.toNat permitShift
    let curr := s.permits
    if curr &&& closed == closed then .ok (.error .closed, s)
    else if curr < numPermits then .ok (.error .noPermits, s)
    else .ok (.ok (), { s with permits := P.sub curr numPermits })
  else
    .error ⟨.panic s!"a semaphore may not have more than MAX_PERMITS permits ({maxPermits P})", s⟩

/-! ### Handing permits to the wait list -/

/-- The loop `'inner` of `add_permits`: fill the waiters from the oldest on until the batch is
full, the permits are used up or the wait list is empty. -/
def assignLoop : ℕ → Inner P W → ℕ → WakeList (Addr × W) → Bool →
    Outcome P W ((ℕ × WakeList (Addr × W) × Bool) × Inner P W)
  | 0, s, _, _, _ => .error ⟨.diverges, s⟩
  | fuel + 1, s, rem, wakers, isEmpty =>
    if wakers.canPush then
      match s.waiters.queue.last s.acquires with
      | .error fault => .error ⟨fault, s⟩
      | .ok none => .ok ((rem, wakers, true), s)
      | .ok (some (a, waiter)) =>
        -- Was the waiter assigned enough permits to wake it?
        let (_, rem', filled) := waiter.node.assignPermits rem
        let s := s.updateNode a fun n => (n.assignPermits rem).1
        if !filled then .ok ((rem', wakers, isEmpty), s)
        else do
          match ← s.onQueue LinkedList.popBack with
          | (none, s) =>
            .error ⟨.panic "called `Option::unwrap()` on a `None` value", s⟩
          | (some waiter, s) => do
            match ← s.takeWaker waiter with
            | (some waker, s) =>
              match wakers.push (waiter, waker) with
              | .ok wakers => assignLoop fuel s rem' wakers isEmpty
              | .error fault => .error ⟨fault, s⟩
            | (none, s) => assignLoop fuel s rem' wakers isEmpty
    else .ok ((rem, wakers, isEmpty), s)

/-- The loop `while rem > 0` of `add_permits`: one batch after the other. -/
def batchLoop : ℕ → Inner P W → ℕ → WakeList (Addr × W) → Bool →
    Outcome P W (Inner P W)
  | 0, s, _, _, _ => .error ⟨.diverges, s⟩
  | fuel + 1, s, rem, wakers, isEmpty =>
    if rem > 0 then do
      let ((rem, wakers, isEmpty), s) ←
        assignLoop (s.acquires.dom.card + 1) s rem wakers isEmpty
      if rem > 0 && isEmpty then
        if rem ≤ maxPermits P then
          let s := { s with permits := P.add s.permits (P.shl rem permitShift) }
          batchLoop fuel (s.wake wakers.wakeAll) 0 WakeList.new isEmpty
        else
          -- unwinding drops the wakers of the batch without waking them
          .error ⟨.panic s!"cannot add more than MAX_PERMITS permits ({maxPermits P})", s⟩
      else batchLoop fuel (s.wake wakers.wakeAll) rem WakeList.new isEmpty
    -- the assertion behind the loop
    else if rem = 0 then .ok s
    else .error ⟨.panic "assertion `left == right` failed", s⟩

/-- `Inner::add_permits`. -/
def addPermits (s : Inner P W) (rem : ℕ) : Outcome P W (Inner P W) :=
  batchLoop (s.acquires.dom.card + 2) s rem WakeList.new false

/-- `Inner::release`. -/
def release (s : Inner P W) (added : ℕ) : Outcome P W (Inner P W) :=
  if added = 0 then .ok s else s.addPermits added

/-! ### Closing -/

/-- The loop of `close`: empty the wait list and wake every waiter. -/
def closeLoop : ℕ → Inner P W → Outcome P W (Inner P W)
  | 0, s => .error ⟨.diverges, s⟩
  | fuel + 1, s => do
    match ← s.onQueue LinkedList.popBack with
    | (none, s) => .ok s
    | (some waiter, s) => do
      match ← s.takeWaker waiter with
      | (some waker, s) => closeLoop fuel (s.wake [(waiter, waker)])
      | (none, s) => closeLoop fuel s

/-- `Inner::close`. -/
def close (s : Inner P W) : Outcome P W (Inner P W) :=
  closeLoop (s.acquires.dom.card + 1)
    { s with permits := s.permits ||| closed, waiters := { s.waiters with closed := true } }

/-! ### The `Acquire` future -/

/-- `Inner::acquire`: the future is created at the free address `a`. -/
def acquire (s : Inner P W) (a : Addr) (numPermits : UInt32) : Inner P W :=
  { s with acquires := s.acquires.insert a (Acquire.new numPermits) }

/-- `Inner::poll_acquire`. -/
def pollAcquire [Waker W] (s : Inner P W) (cx : W) (numPermits : UInt32) (node : Addr)
    (queued : Bool) : Outcome P W (Poll (Except AcquireError Unit) × Inner P W) := do
  let waiter ← s.deref node
  let needed :=
    if queued then P.shl waiter.node.state permitShift
    else P.shl numPermits.toNat permitShift
  let curr := s.permits
  -- If closed, return error immediately.
  if curr &&& closed > 0 then .ok (.ready (.error .closed), s)
  -- If the current permits is enough and not queued, assign permit.
  else if curr ≥ needed ∧ queued = false then
    .ok (.ready (.ok ()), { s with permits := P.sub curr needed })
  else
    -- Clear permits and assign it.
    let permits := curr >>> permitShift
    let s := { s with permits := 0 }
    let (_, rest, filled) := waiter.node.assignPermits permits
    let s := s.updateNode node fun n => (n.assignPermits permits).1
    if filled then do
      let s ← s.addPermits rest
      pure (.ready (.ok ()), s)
    else
      let s := s.updateNode node (Waiter.register cx)
      -- If the waiter is not already in the wait queue, enqueue it.
      if queued then pure (.pending, s)
      else do
        let (_, s) ← s.onQueue fun l h => do
          let r ← l.pushFront h node
          pure ((), r)
        pure (.pending, s)

/-- `Acquire::poll`. -/
def poll [Waker W] (s : Inner P W) (a : Addr) (cx : W) :
    Outcome P W (Poll (Except AcquireError Unit) × Inner P W) := do
  let q ← s.deref a
  match ← s.pollAcquire cx q.numPermits a q.queued with
  | (.pending, s) => pure (.pending, s.setQueued a true)
  -- `r?` returns before the flag is cleared
  | (.ready (.error e), s) => pure (.ready (.error e), s)
  | (.ready (.ok ()), s) => pure (.ready (.ok ()), s.setQueued a false)

/-- The memory of the future at address `a` is freed. -/
def free (s : Inner P W) (a : Addr) : Inner P W := { s with acquires := s.acquires.erase a }

/-- `Acquire::drop`, and the release of the future's memory after it. -/
def dropAcquire (s : Inner P W) (a : Addr) : Outcome P W (Inner P W) := do
  let q ← s.deref a
  if q.queued then
    -- Remove the entry from the list.
    let (_, s) ← s.onQueue fun l h => l.remove h a
    let q ← s.deref a
    let acquiredPermits := P.sub q.numPermits.toNat q.node.state
    let s ← if acquiredPermits > 0 then s.addPermits acquiredPermits else pure s
    pure (s.free a)
  else
    -- The future is completed or was never queued: there is no node in the wait list.
    pure (s.free a)

end Inner

end Semaphore

end LocalSync
