/-
  The bounded channel with wakers that re-enter it.

  As in `Semaphore.Reentrant`, the operations are those of the channel, once
  more, with the borrow flags of the `RefCell`s and with the wakers called where
  the source calls them.  The channel wakes through its semaphore, and wakes the
  receiver itself.

  A future that a call holds is in nobody else's reach, and so is a handle that
  is being dropped.  What such a call does to them is written down before it
  calls a waker, so that the state a waker finds is the one that the call leaves.
-/
import LocalSync.Semaphore.Reentrant
import LocalSync.Mpsc.Bounded

namespace LocalSync.Mpsc.Bounded

open Lib
open LocalSync.Semaphore (Inner Tracked AcquireError Host)

variable {P : PointerWidth} {T W : Type}

/-- The semaphore of the channel. -/
instance : Host (Channel P T W) P W where
  sem s := s.handles.chan.semaphore
  setSem s semaphore :=
    { s with handles := { s.handles with chan := { s.handles.chan with semaphore } } }
  sem_setSem _ _ := rfl
  setSem_sem _ := rfl
  setSem_setSem _ _ _ := rfl

namespace Reentrant

open LocalSync.Semaphore.Reentrant (release close awaitOne dropAcquire)

/-- Change the handles of the program. -/
def onHandles (w : World (Channel P T W))
    (f : Handles (Tracked P W) T W → Handles (Tracked P W) T W) : World (Channel P T W) :=
  w.modify fun s => { s with handles := f s.handles }

/-- Change the channel of the program. -/
def onChan (w : World (Channel P T W))
    (f : Chan (Tracked P W) T W → Chan (Tracked P W) T W) : World (Channel P T W) :=
  onHandles w fun s => { s with chan := f s.chan }

/-- Call the waker of the receiver, if it has registered one. -/
def wakeRx (wake : World (Channel P T W) → Except Fault (World (Channel P T W)))
    (w : World (Channel P T W)) : Except Fault (World (Channel P T W)) := do
  w.touch .rxWaker
  if w.state.handles.chan.rxWaker.isSome then wake (onChan w Chan.wakeRx)
  else pure (onChan w Chan.wakeRx)

/-- A handle has been dropped: the last one takes `Chan` along. -/
def releaseHandles (w : World (Channel P T W)) : Except Fault (World (Channel P T W)) := do
  if ¬ w.state.handles.alive then w.touch .queue
  let handles ← w.state.handles.release
  pure (onHandles w fun _ => handles)

/-! ### `Tx` -/

/-- `Tx::send` of `chan.rs`. -/
def send (wake : World (Channel P T W) → Except Fault (World (Channel P T W)))
    (w : World (Channel P T W)) (value : T) : Except Fault (World (Channel P T W)) := do
  -- check if the semaphore is closed
  w.read .permits
  if w.state.handles.chan.isClosed then pure w
  else do
    -- put data into the queue
    w.touch .queue
    let queue ← w.state.handles.chan.queue.pushUnchecked value
    let w := onHandles w fun s =>
      { s with chan := { s.chan with queue }, accepted := s.accepted ++ [value] }
    -- if rx waker is set, wake it
    wakeRx wake w

/-- `Tx::drop`. -/
def dropTx (wake : World (Channel P T W) → Except Fault (World (Channel P T W)))
    (w : World (Channel P T W)) (tx : ℕ) : Except Fault (World (Channel P T W)) := do
  let cnt := w.state.handles.chan.txCount
  assert (cnt != 0) "attempt to subtract with overflow"
  let w := onHandles w fun s =>
    { s with chan := { s.chan with txCount := cnt - 1 }, txs := s.txs.erase tx }
  if cnt = 1 then do
    let w ← close wake w
    let w ← wakeRx wake w
    releaseHandles w
  else releaseHandles w

/-- The body of `Tx::send` of `bounded.rs`, from the start or from where it is suspended. -/
def resume [Waker W] (wake : World (Channel P T W) → Except Fault (World (Channel P T W)))
    (w : World (Channel P T W)) (i : Addr) (tx : ℕ) (value : T) (first : Bool) (cx : W) :
    Except Fault (World (Channel P T W)) := do
  -- acquire semaphore first
  match ← awaitOne wake w i first cx with
  | (.pending, w) => pure (w.modify fun s => s.setStage i tx (.suspended value))
  | (.ready (.error _), w) => pure (w.modify fun s => s.setStage i tx .returned)
  | (.ready (.ok ()), w) => send wake (w.modify fun s => s.setStage i tx .returned) value

/-- The poll of a send future. -/
def pollSend [Waker W] (wake : World (Channel P T W) → Except Fault (World (Channel P T W)))
    (w : World (Channel P T W)) (i : Addr) (cx : W) : Except Fault (World (Channel P T W)) :=
  match w.state.sends.get? i with
  | none => .error .dangling
  | some { tx, stage := .unresumed value } => do
    pure ((← resume wake (w.hold i) i tx value true cx).letGo i)
  | some { tx, stage := .suspended value } => do
    pure ((← resume wake (w.hold i) i tx value false cx).letGo i)
  | some { stage := .returned, .. } => .error (.panic "`async fn` resumed after completion")

/-- The drop of a send future. -/
def dropSend (wake : World (Channel P T W) → Except Fault (World (Channel P T W)))
    (w : World (Channel P T W)) (i : Addr) : Except Fault (World (Channel P T W)) :=
  match w.state.sends.get? i with
  | none => .error .dangling
  | some { stage := .suspended _, .. } => do
    let w := (w.hold i).modify fun s => { s with sends := s.sends.erase i }
    pure ((← dropAcquire wake w i).letGo i)
  | some _ => pure (w.modify fun s => { s with sends := s.sends.erase i })

/-! ### `Rx` -/

/-- `Rx::try_recv`: `queue` is borrowed until it returns. -/
def tryRecv (wake : World (Channel P T W) → Except Fault (World (Channel P T W)))
    (w : World (Channel P T W)) : Except Fault (World (Channel P T W)) := do
  let w ← w.borrowMut .queue
  if !w.state.handles.chan.queue.isEmpty then do
    let (val, queue) ← w.state.handles.chan.queue.popUnchecked
    let w ← release wake (onChan w fun c => { c with queue }) 1
    pure ((onHandles w fun s => { s with received := s.received ++ [val] }).release .queue)
  else pure (w.release .queue)

/-- `Rx::recv`: `queue` is borrowed until it returns. -/
def recv [Waker W] (wake : World (Channel P T W) → Except Fault (World (Channel P T W)))
    (w : World (Channel P T W)) (cx : W) : Except Fault (World (Channel P T W)) := do
  let w ← w.borrowMut .queue
  if !w.state.handles.chan.queue.isEmpty then do
    let (val, queue) ← w.state.handles.chan.queue.popUnchecked
    let w ← release wake (onChan w fun c => { c with queue }) 1
    pure ((onHandles w fun s =>
      { s with received := s.received ++ [val], polled := none }).release .queue)
  else if w.state.handles.chan.txCount = 0 then
    pure ((onHandles w fun s => { s with polled := none }).release .queue)
  else do
    w.touch .rxWaker
    let w := onChan w fun c => c.register cx
    pure ((onHandles w fun s =>
      { s with polled := some (cx, s.chan.woken.length) }).release .queue)

/-- `Rx::drop`. -/
def dropRx (wake : World (Channel P T W) → Except Fault (World (Channel P T W)))
    (w : World (Channel P T W)) : Except Fault (World (Channel P T W)) := do
  -- close semaphore on close, this will make tx send await return
  let w ← close wake w
  -- consume all elements
  let w ← w.borrowMut .queue
  let len := w.state.handles.chan.queue.len
  let chan ← Chan.drain (len + 1) w.state.handles.chan
  let w ← release wake (onChan w fun _ => chan) len
  releaseHandles ((onHandles w fun s => { s with rx := false }).release .queue)

end Reentrant

/-! ### The clients -/

/-- The future that an action needs for itself. -/
def Action.future : Action T W → Option Addr
  | .call _ => none
  | .send i _ _ => some i
  | .poll i _ => some i
  | .drop i => some i

/-- What a waker may do: create a send, poll one and drop one. -/
def Action.reentrant : Action T W → Bool
  | .call _ => false
  | _ => true

namespace Channel

variable [Waker W]

/-- How many wakers have been woken so far. -/
def wakes (s : Channel P T W) : ℕ :=
  s.handles.chan.semaphore.inner.woken.length + s.handles.chan.woken.length

/-- Run one call; what it returns is not recorded. -/
def execWith (wake : World (Channel P T W) → Except Fault (World (Channel P T W)))
    (w : World (Channel P T W)) : Action T W → Except Fault (World (Channel P T W))
  | .call (.clone _ new) => pure (Reentrant.onHandles w fun s => s.clone new)
  | .call (.dropTx tx) => Reentrant.dropTx wake w tx
  | .call (.isClosed _) => do
    w.read .permits
    pure w
  | .call (.recv cx) => Reentrant.recv wake w cx
  | .call .tryRecv => Reentrant.tryRecv wake w
  | .call .close => Semaphore.Reentrant.close wake w
  | .call .dropRx => Reentrant.dropRx wake w
  | .send i tx value => pure (w.modify fun s => s.setStage i tx (.unresumed value))
  | .poll i cx => Reentrant.pollSend wake w i cx
  | .drop i => Reentrant.dropSend wake w i

/-- A waker may make the call `c` now: it is allowed, and its future is not in use. -/
def Ready (w : World (Channel P T W)) (c : Action T W) : Prop :=
  c.reentrant = true ∧ w.state.Allowed c ∧ ∀ i, c.future = some i → i ∉ w.busy

instance (w : World (Channel P T W)) (c : Action T W) : Decidable (Ready w c) := by
  unfold Ready
  cases c.future <;> infer_instance

/-- One call of a script. -/
def reenter (wake : World (Channel P T W) → Except Fault (World (Channel P T W)))
    (w : World (Channel P T W)) (c : Action T W) : Except Fault (World (Channel P T W)) :=
  if Ready w c then execWith wake w c else .ok w

/-- The waker that performs `script k`, when `k` wakers have been woken with it. -/
def wakeUp (script : ℕ → List (Action T W)) :
    ℕ → World (Channel P T W) → Except Fault (World (Channel P T W)) :=
  callback reenter (fun w => script w.state.wakes) .diverges

/-- No script of a waker that the call `c` wakes finds a cell borrowed. -/
def Safe (s : Channel P T W) (c : Action T W) : Prop :=
  ∀ script depth e, execWith (wakeUp script depth) (World.of s) c = .error e → ¬ e.IsBorrow

/-- The call `c` wakes somebody. -/
def Wakes (s : Channel P T W) (c : Action T W) : Prop :=
  ∃ o t, s.exec c = .ok (o, t) ∧ t.wakes ≠ s.wakes

/-- The call `c` is the drop of a `Tx`, or the poll of a send while no other send has a slot
assigned. -/
def Clear (s : Channel P T W) : Action T W → Prop
  | .call (.dropTx _) => True
  | .poll i _ => s.assigned ⊆ {i}
  | _ => False

/-- One step of a run with re-entering wakers: an allowed call with the scripts of the wakers it
calls, which return.  They are empty unless the call is `Clear`. -/
def ReentrantStep (s : Channel P T W) (e : Action T W × (ℕ → List (Action T W)))
    (t : Channel P T W) : Prop :=
  s.Allowed e.1 ∧ (s.Wakes e.1 → s.Clear e.1 ∨ ∀ k, e.2 k = []) ∧
    ∃ depth, execWith (wakeUp e.2 (depth + 1)) (World.of s) e.1 = .ok (World.of t)

end Channel

end LocalSync.Mpsc.Bounded
