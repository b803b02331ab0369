/-
  The oneshot channel with wakers whose code uses the channel.

  A call runs code of a waker where it wakes one, where it drops the one in a
  slot, and where it clones a new one.  The handle that the call was made on is
  borrowed or consumed, so this code can only reach the other end; and while it
  uses that end, nobody is left who could nest any deeper.  So a call comes with
  a `Script`, the calls made at each of these points, and those run as usual.

  The bodies are those of `Inner` and `System` once more, with the state passed
  on through these points.  A local copy of the flags stays as it was read
  while the script runs.  A waker is woken where it lies, by reference: it has to
  be there still when it returns (`stays`).
-/
import LocalSync.Oneshot.Spec

namespace LocalSync.Oneshot

open Lib

variable {P : PointerWidth} {T W : Type}

/-- The calls that the code of the wakers makes during one call. -/
structure Script (T W : Type) where
  /-- While the waker of the other end is woken. -/
  atWake : List (Action T W)
  /-- While the waker in the own slot is dropped. -/
  atDrop : List (Action T W)
  /-- While the waker of the poll is cloned. -/
  atClone : List (Action T W)

/-- The calls made so far with their answers. -/
abbrev Log (T W : Type) : Type := List (Action T W × Answer T)

/-- A waker that has been woken in the slot `before` is still there in `after`. -/
def stays (before after : Task W) : Except Fault Unit :=
  if after.cloned.length = before.cloned.length ∧ after.dropped.length = before.dropped.length then
    .ok ()
  else .error .dangling

namespace System

variable [Waker W]

/-- The code of a waker makes calls on the sender, or on the receiver. A call that is not possible
is skipped. -/
def nest (ofSender : Bool) :
    List (Action T W) → System P T W → Except Fault (Log T W × System P T W)
  | [], s => .ok ([], s)
  | c :: cs, s =>
    if c.ofSender = ofSender ∧ s.Allowed c then do
      let (o, s) ← s.exec c
      let (log, s) ← nest ofSender cs s
      pure ((c, o) :: log, s)
    else nest ofSender cs s

/-! ### The shared state -/

/-- `Inner::complete`. -/
def completeWith (k : Script T W) (s : System P T W) :
    Except Fault (Bool × Log T W × System P T W) := do
  let prev := s.inner.state.setComplete
  let s := { s with inner := { s.inner with state := prev } }
  if prev.isClosed then return (false, [], s)
  if prev.isRxTaskSet then
    let rxTask ← s.inner.rxTask.wakeByRef
    let (log, t) ← nest false k.atWake { s with inner := { s.inner with rxTask } }
    stays rxTask t.inner.rxTask
    return (true, log, t)
  return (true, [], s)

/-- `Inner::close`. -/
def shutWith (k : Script T W) (s : System P T W) : Except Fault (Log T W × System P T W) := do
  let prev := s.inner.state.setClosed
  let s := { s with inner := { s.inner with state := prev } }
  if prev.isTxTaskSet && !prev.isComplete then
    let txTask ← s.inner.txTask.wakeByRef
    let (log, t) ← nest true k.atWake { s with inner := { s.inner with txTask } }
    stays txTask t.inner.txTask
    return (log, t)
  return ([], s)

/-- The end of `Inner::poll_recv` once the channel is complete. -/
def recvValue (s : System P T W) (log : Log T W) :
    Poll (Except RecvError T) × Log T W × System P T W :=
  let (r, inner) := s.inner.recvValue
  (r, log, { s with inner })

/-- `Inner::poll_recv`, from `if !state.is_rx_task_set()` on. -/
def awaitRx (k : Script T W) (cx : W) (state : State P) (log : Log T W) (s : System P T W) :
    Except Fault (Poll (Except RecvError T) × Log T W × System P T W) :=
  if !state.isRxTaskSet then do
    let (log', s) ← nest true k.atClone s
    let s := { s with inner := { s.inner with rxTask := s.inner.rxTask.setTask cx } }
    let state := s.inner.state.setRxTask
    let s := { s with inner := { s.inner with state } }
    if state.isComplete then return s.recvValue (log ++ log')
    else return (.pending, log ++ log', s)
  else .ok (.pending, log, s)

/-- `Inner::poll_recv`. -/
def pollRecvWith (k : Script T W) (cx : W) (s : System P T W) :
    Except Fault (Poll (Except RecvError T) × Log T W × System P T W) := do
  let state := s.inner.state
  if state.isComplete then return s.recvValue []
  else if state.isClosed then return (.ready (.error ⟨⟩), [], s)
  else if state.isRxTaskSet then
    -- check if the task is still the same
    let willNotify ← s.inner.rxTask.willWake cx
    if !willNotify then
      let state := s.inner.state.unsetRxTask
      let s := { s with inner := { s.inner with state } }
      if state.isComplete then
        -- set the flag again so that the waker is released in drop
        return recvValue { s with inner := { s.inner with state := s.inner.state.setRxTask } } []
      else
        let rxTask ← s.inner.rxTask.dropTask
        let (log, s) ← nest true k.atDrop { s with inner := { s.inner with rxTask } }
        awaitRx k cx state log s
    else awaitRx k cx state [] s
  else awaitRx k cx state [] s

/-- `Sender::poll_closed`, from `if !state.is_tx_task_set()` on. -/
def awaitTx (k : Script T W) (cx : W) (state : State P) (log : Log T W) (s : System P T W) :
    Except Fault (Poll Unit × Log T W × System P T W) :=
  if !state.isTxTaskSet then do
    let (log', s) ← nest false k.atClone s
    let s := { s with inner := { s.inner with txTask := s.inner.txTask.setTask cx } }
    let state := s.inner.state.setTxTask
    let s := { s with inner := { s.inner with state } }
    if state.isClosed then return (.ready (), log ++ log', s)
    else return (.pending, log ++ log', s)
  else .ok (.pending, log, s)

/-! ### The sender -/

/-- `Sender::poll_closed`. -/
def pollClosedWith (k : Script T W) (cx : W) (s : System P T W) :
    Except Fault (Poll Unit × Log T W × System P T W) := do
  let inner ← s.txInner
  let state := inner.state
  if state.isClosed then return (.ready (), [], s)
  else if state.isTxTaskSet then
    let willNotify ← inner.txTask.willWake cx
    if !willNotify then
      let state := inner.state.unsetTxTask
      let s := { s with inner := { inner with state } }
      if state.isClosed then
        -- set the flag again so that the waker is released in drop
        return (.ready (), [],
          { s with inner := { s.inner with state := s.inner.state.setTxTask } })
      else
        let txTask ← s.inner.txTask.dropTask
        let (log, s) ← nest false k.atDrop { s with inner := { s.inner with txTask } }
        awaitTx k cx state log s
    else awaitTx k cx state [] s
  else awaitTx k cx state [] s

/-- `Sender::send`. -/
def sendWith (k : Script T W) (t : T) (s : System P T W) :
    Except Fault (Except T Unit × Log T W × System P T W) := do
  let inner := (← s.txInner).setValue t
  let (sent, log, s) ← { s with inner }.completeWith k
  if !sent then
    match s.inner.consumeValue with
    | (some t, inner) => do pure (.error t, log, ← { s with tx := none, inner }.dropRc)
    | (none, _) => .error (.panic "called `Option::unwrap()` on a `None` value")
  else do pure (.ok (), log, ← { s with tx := none }.dropRc)

/-- `Sender::drop`. -/
def dropTxWith (k : Script T W) (s : System P T W) : Except Fault (Log T W × System P T W) :=
  match s.tx with
  | none => .error .dangling
  | some { inner := false } => .ok ([], { s with tx := none })
  | some { inner := true } => do
    let (_, log, s) ← s.completeWith k
    pure (log, ← { s with tx := none }.dropRc)

/-! ### The receiver -/

/-- `Receiver::close`. -/
def closeWith (k : Script T W) (s : System P T W) : Except Fault (Log T W × System P T W) :=
  match s.rx with
  | none => .error .dangling
  | some { inner := false } => .ok ([], s)
  | some { inner := true } => s.shutWith k

/-- `Receiver::drop`. -/
def dropRxWith (k : Script T W) (s : System P T W) : Except Fault (Log T W × System P T W) :=
  match s.rx with
  | none => .error .dangling
  | some { inner := false } => .ok ([], { s with rx := none })
  | some { inner := true } => do
    let (log, s) ← s.shutWith k
    pure (log, ← { s with rx := none }.dropRc)

/-- `Receiver::poll`. An error does not clear `inner`; a poll that panics has changed nothing. -/
def pollWith (k : Script T W) (cx : W) (s : System P T W) :
    Except Fault (Answer T × Log T W × System P T W) :=
  match s.rx with
  | none => .error .dangling
  | some { inner := false } => .ok (.unwound, [], s)
  | some { inner := true } => do
    match ← s.pollRecvWith k cx with
    | (.ready (.ok value), log, s) => do pure (.received (.ready (.ok value)), log, ← s.finish)
    | (r, log, s) => pure (.received r, log, s)

/-! ### The steps -/

/-- Run one call, with the code of the wakers it runs. -/
def execWith (k : Script T W) (s : System P T W) :
    Action T W → Except Fault (Answer T × Log T W × System P T W)
  | .pollClosed cx => do
    let (r, log, s) ← s.pollClosedWith k cx
    pure (.closed r, log, s)
  | .send t => do
    let (r, log, s) ← s.sendWith k t
    pure (.sent r, log, s)
  | .dropTx => do
    let (log, s) ← s.dropTxWith k
    pure (.unit, log, s)
  | .poll cx => s.pollWith k cx
  | .close => do
    let (log, s) ← s.closeWith k
    pure (.unit, log, s)
  | .dropRx => do
    let (log, s) ← s.dropRxWith k
    pure (.unit, log, s)
  -- no code of a waker runs here
  | c => do
    let (o, s) ← s.exec c
    pure (o, [], s)

/-- A call, its answer, and the calls made meanwhile. -/
structure Entry (T W : Type) where
  call : Action T W
  answer : Answer T
  meanwhile : Log T W

/-- One step: a client makes an allowed call, whatever the code of the wakers does. -/
def StepWith (s : System P T W) (e : Entry T W) (t : System P T W) : Prop :=
  s.Allowed e.call ∧ ∃ k, s.execWith k e.call = .ok (e.answer, e.meanwhile, t)

end System

end LocalSync.Oneshot
