/-
  The semaphore with wakers that re-enter it.

  The operations are those of `Inner`, once more, with the borrow flags of the
  `RefCell`s and with the wakers called where the source calls them: a waker is
  recorded as woken and then runs, with the cells borrowed that are borrowed
  there.  They act on any state that contains a semaphore (`Host`), since a
  channel runs on the same code.

  What a waker does is a script, a list of calls, which may depend on how many
  wakers have been called before; a call of the script that its caller could not
  make is skipped.  `Safe` says that no script, at any point of a call, finds a
  cell borrowed.
-/
import LocalSync.Lib.Callback
import LocalSync.RefCell
import LocalSync.Semaphore.System

namespace LocalSync.Semaphore

open Lib

variable {P : PointerWidth} {W : Type} {σ : Type}

/-- A state that contains a semaphore. -/
class Host (σ : Type) (P : outParam PointerWidth) (W : outParam Type) where
  sem : σ → Tracked P W
  setSem : σ → Tracked P W → σ
  sem_setSem : ∀ s x, sem (setSem s x) = x
  setSem_sem : ∀ s, setSem s (sem s) = s
  setSem_setSem : ∀ s x y, setSem (setSem s x) y = setSem s y

/-- The semaphore by itself. -/
instance : Host (Tracked P W) P W where
  sem x := x
  setSem _ x := x
  sem_setSem _ _ := rfl
  setSem_sem _ := rfl
  setSem_setSem _ _ _ := rfl

/-- The semaphore with its clients. -/
instance : Host (System P W) P W where
  sem s := s.sem
  setSem s sem := { s with sem }
  sem_setSem _ _ := rfl
  setSem_sem _ := rfl
  setSem_setSem _ _ _ := rfl

namespace Reentrant

variable [Host σ P W]

/-- The low-level semaphore of the program. -/
def inner (w : World σ) : Inner P W := (Host.sem w.state).inner

/-- Replace the low-level semaphore of the program. -/
def setInner (w : World σ) (s : Inner P W) : World σ :=
  w.modify fun t => Host.setSem t { Host.sem t with inner := s }

/-- Replace the history of the semaphore. -/
def setHistory (w : World σ) (f : History W → History W) : World σ :=
  w.modify fun t => Host.setSem t { Host.sem t with history := f (Host.sem t).history }

/-- Call the wakers `ws`, in this order. -/
def wakeAll (wake : World σ → Except Fault (World σ)) :
    List (Addr × W) → World σ → Except Fault (World σ)
  | [], w => .ok w
  | e :: ws, w => do wakeAll wake ws (← wake (setInner w ((inner w).wake [e])))

/-- The loop `while rem > 0` of `add_permits`, while `waiters` is borrowed. -/
def batchLoop (wake : World σ → Except Fault (World σ)) :
    ℕ → World σ → ℕ → Bool → Except Fault (World σ)
  | 0, _, _, _ => .error .diverges
  | fuel + 1, w, rem, isEmpty =>
    if rem > 0 then do
      let ((rem, wakers, isEmpty), s) ←
        (Inner.assignLoop ((inner w).acquires.dom.card + 1) (inner w) rem WakeList.new
          isEmpty).fault
      let w := setInner w s
      if rem > 0 && isEmpty then
        if rem ≤ Inner.maxPermits P then do
          w.touch .permits
          let w := setInner w
            { inner w with permits := P.add (inner w).permits (P.shl rem Inner.permitShift) }
          let w ← wakeAll wake wakers.wakeAll w
          batchLoop wake fuel w 0 isEmpty
        else
          .error (.panic
            s!"cannot add more than MAX_PERMITS permits ({Inner.maxPermits P})")
      else do
        let w ← wakeAll wake wakers.wakeAll w
        batchLoop wake fuel w rem isEmpty
    -- the assertion behind the loop
    else if rem = 0 then .ok w
    else .error (.panic "assertion `left == right` failed")

/-- `Inner::add_permits`: `waiters` is borrowed until it returns. -/
def addPermits (wake : World σ → Except Fault (World σ)) (w : World σ) (rem : ℕ) :
    Except Fault (World σ) := do
  let w ← w.borrowMut .waiters
  let w ← batchLoop wake ((inner w).acquires.dom.card + 2) w rem false
  pure (w.release .waiters)

/-- `Inner::release`. -/
def release (wake : World σ → Except Fault (World σ)) (w : World σ) (added : ℕ) :
    Except Fault (World σ) :=
  if added = 0 then .ok w else addPermits wake w added

/-- The loop of `close`, while `waiters` is borrowed. -/
def closeLoop (wake : World σ → Except Fault (World σ)) :
    ℕ → World σ → Except Fault (World σ)
  | 0, _ => .error .diverges
  | fuel + 1, w => do
    match ← ((inner w).onQueue LinkedList.popBack).fault with
    | (none, s) => .ok (setInner w s)
    | (some waiter, s) => do
      match ← (s.takeWaker waiter).fault with
      | (some waker, s) => do
        closeLoop wake fuel (← wakeAll wake [(waiter, waker)] (setInner w s))
      | (none, s) => closeLoop wake fuel (setInner w s)

/-- `Inner::close`: `waiters` is borrowed while the wakers are called. -/
def close (wake : World σ → Except Fault (World σ)) (w : World σ) : Except Fault (World σ) := do
  w.touch .permits
  let w := setInner w { inner w with permits := (inner w).permits ||| Inner.closed }
  w.touch .waiters
  let w := setInner w { inner w with waiters := { (inner w).waiters with closed := true } }
  let w ← w.borrowMut .waiters
  let w ← closeLoop wake ((inner w).acquires.dom.card + 1) w
  pure (w.release .waiters)

/-- `Inner::poll_acquire`: the guard of `permits` is dropped before permits are handed on. -/
def pollAcquire [Waker W] (wake : World σ → Except Fault (World σ)) (w : World σ) (cx : W)
    (numPermits : UInt32) (node : Addr) (queued : Bool) :
    Except Fault (Poll (Except AcquireError Unit) × World σ) := do
  let waiter ← ((inner w).deref node).fault
  let needed :=
    if queued then P.shl waiter.node.state Inner.permitShift
    else P.shl numPermits.toNat Inner.permitShift
  let w ← w.borrowMut .permits
  let curr := (inner w).permits
  -- If closed, return error immediately.
  if curr &&& Inner.closed > 0 then pure (.ready (.error .closed), w.release .permits)
  -- If the current permits is enough and not queued, assign permit.
  else if curr ≥ needed ∧ queued = false then
    let w := setInner w { inner w with permits := P.sub curr needed }
    pure (.ready (.ok ()), w.release .permits)
  else
    -- Clear permits and assign it.
    let permits := curr >>> Inner.permitShift
    let w := (setInner w { inner w with permits := 0 }).release .permits
    let (_, rest, filled) := waiter.node.assignPermits permits
    let w := setInner w ((inner w).updateNode node fun n => (n.assignPermits permits).1)
    if filled then do
      let w ← addPermits wake w rest
      pure (.ready (.ok ()), w)
    else
      let w := setInner w ((inner w).updateNode node (Waiter.register cx))
      -- If the waiter is not already in the wait queue, enqueue it.
      if queued then pure (.pending, w)
      else do
        w.touch .waiters
        let (_, s) ← ((inner w).onQueue fun l h => do
          let r ← l.pushFront h node
          pure ((), r)).fault
        pure (.pending, setInner w s)

/-- `Acquire::poll`. -/
def poll [Waker W] (wake : World σ → Except Fault (World σ)) (w : World σ) (i : Addr) (cx : W) :
    Except Fault (Poll (Except AcquireError Unit) × World σ) := do
  let q ← ((inner w).deref i).fault
  let (result, w) ← pollAcquire wake w cx q.numPermits i q.queued
  let w :=
    match result with
    | .pending => setInner w ((inner w).setQueued i true)
    -- `r?` returns before the flag is cleared
    | .ready (.error _) => w
    | .ready (.ok ()) => setInner w ((inner w).setQueued i false)
  let wakes := (wakesOf i (inner w).woken).length
  pure (result, setHistory w fun h => h.poll i cx wakes result.isPending)

/-- `Acquire::drop`: the guard of `waiters` is dropped before permits are handed on. -/
def dropAcquire (wake : World σ → Except Fault (World σ)) (w : World σ) (i : Addr) :
    Except Fault (World σ) := do
  let q ← ((inner w).deref i).fault
  if q.queued then do
    w.touch .waiters
    -- Remove the entry from the list.
    let (_, s) ← ((inner w).onQueue fun l h => l.remove h i).fault
    let w := setInner w s
    let q ← ((inner w).deref i).fault
    let acquiredPermits := P.sub q.numPermits.toNat q.node.state
    let w ← if acquiredPermits > 0 then addPermits wake w acquiredPermits else pure w
    pure (setInner w ((inner w).free i))
  else
    -- The future is completed or was never queued: there is no node in the wait list.
    pure (setInner w ((inner w).free i))

/-- `acquire(1).await`: the future is dropped as soon as it returns. -/
def awaitOne [Waker W] (wake : World σ → Except Fault (World σ)) (w : World σ) (i : Addr)
    (first : Bool) (cx : W) : Except Fault (Poll (Except AcquireError Unit) × World σ) := do
  let w :=
    if first then w.modify fun t => Host.setSem t ((Host.sem t).acquire i 1) else w
  match ← poll wake w i cx with
  | (.pending, w) => pure (.pending, w)
  | (.ready r, w) => do
    let w ← dropAcquire wake w i
    pure (.ready r, w)

end Reentrant

/-! ### The clients -/

/-- The future that an action needs for itself. -/
def Action.future : Action W → Option Addr
  | .acquireMany i _ => some i
  | .poll i _ => some i
  | .dropAcquire i => some i
  | _ => none

/-- What a waker may do: add permits, drop a pending acquire or a permit, create an acquire and
poll one. -/
def Action.reentrant : Action W → Bool
  | .addPermits _ => true
  | .acquireMany _ _ => true
  | .poll _ _ => true
  | .dropAcquire _ => true
  | .dropPermit _ => true
  | _ => false

namespace System

variable [Waker W]

/-- How many wakers have been woken so far. -/
def wakes (s : System P W) : ℕ := s.sem.inner.woken.length

/-- Run one call; what it returns is not recorded. -/
def execWith (wake : World (System P W) → Except Fault (World (System P W)))
    (w : World (System P W)) : Action W → Except Fault (World (System P W))
  | .addPermits n => do
    let w ← Reentrant.release wake w n
    pure (w.modify fun s => { s with added := s.added + n })
  | .acquireMany i n => pure (w.modify fun s => s.acquireMany i n)
  | .poll i cx => do
    match w.state.results.get? i with
    | none => .error .dangling
    | some permits => do
      match ← Reentrant.poll wake (w.hold i) i cx with
      | (.pending, w) => pure (w.letGo i)
      | (.ready (.error _), w) => pure (w.letGo i)
      | (.ready (.ok ()), w) => pure ((w.modify fun s => (s.grant permits).2).letGo i)
  | .dropAcquire i => do
    let w ← Reentrant.dropAcquire wake (w.hold i) i
    pure ((w.modify fun s => { s with results := s.results.erase i }).letGo i)
  | .tryAcquireMany n => do
    let (_, s) ← (w.state.exec (.tryAcquireMany n)).fault
    w.touch .permits
    pure { w with state := s }
  -- the guard is gone for everybody else as soon as its drop starts
  | .dropPermit p => do
    match w.state.permits.get? p with
    | none => .error .dangling
    | some permits =>
      Reentrant.release wake (w.modify fun s => { s with permits := s.permits.erase p })
        permits.toNat
  | .forget p => do
    let (_, s) ← (w.state.exec (.forget p)).fault
    pure { w with state := s }
  | .close => Reentrant.close wake w

/-- A waker may make the call `c` now: it is allowed, and its future is not in use. -/
def Ready (w : World (System P W)) (c : Action W) : Prop :=
  c.reentrant = true ∧ w.state.Allowed c ∧ ∀ i, c.future = some i → i ∉ w.busy

instance (w : World (System P W)) (c : Action W) : Decidable (Ready w c) := by
  unfold Ready
  cases c.future <;> infer_instance

/-- One call of a script. -/
def reenter (wake : World (System P W) → Except Fault (World (System P W)))
    (w : World (System P W)) (c : Action W) : Except Fault (World (System P W)) :=
  if Ready w c then execWith wake w c else .ok w

/-- The waker that performs `script k`, when `k` wakers have been woken with it. -/
def wakeUp (script : ℕ → List (Action W)) :
    ℕ → World (System P W) → Except Fault (World (System P W)) :=
  callback reenter (fun w => script w.state.wakes) .diverges

/-- No script of a waker that the call `c` wakes finds a cell borrowed. -/
def Safe (s : System P W) (c : Action W) : Prop :=
  ∀ script depth e, execWith (wakeUp script depth) (World.of s) c = .error e → ¬ e.IsBorrow

/-- The call `c` wakes somebody, whether it returns or panics in the end. -/
def Wakes (s : System P W) (c : Action W) : Prop :=
  match s.exec c with
  | .ok (_, t) => t.wakes ≠ s.wakes
  | .error u => u.state.woken.length ≠ s.wakes

instance (s : System P W) (c : Action W) : Decidable (s.Wakes c) := by
  unfold Wakes
  split <;> infer_instance

end System

end LocalSync.Semaphore
