/-
  A channel with its handles: the transition system that the bounded and the
  unbounded channel share.

  The state adds to `Chan` which `Tx`s are alive and whether `Rx` is, and the
  history of the channel: the values accepted and received so far, and the last
  poll of the receiver.  `Chan` lives as long as some handle does; the drop of
  the last one runs `Chan::drop`.  Sending differs between the channels, and is
  not among the calls here.
-/
import LocalSync.Mpsc.Chan

namespace LocalSync.Mpsc

/-- A channel with its handles. -/
structure Handles (S T W : Type) where
  chan : Chan S T W
  /-- The live `Tx`s. -/
  txs : Finset ℕ
  /-- `Rx` is alive. -/
  rx : Bool
  /-- The values whose send returned `Ok`, in order of completion. -/
  accepted : List T
  /-- The values received, in order. -/
  received : List T
  /-- If the last poll of the receiver returned `Pending`: the waker of that poll, and how many
  wakers of the receiver had been woken by then. -/
  polled : Option (W × ℕ)

/-- A call through a handle. -/
inductive Call (W : Type) where
  /-- `Tx::clone`: `new` is the name of the new handle. -/
  | clone (tx new : ℕ)
  | dropTx (tx : ℕ)
  | isClosed (tx : ℕ)
  | recv (cx : W)
  | tryRecv
  | close
  | dropRx

/-- The live `Tx`s after a call. -/
def Call.txs {W : Type} : Call W → Finset ℕ → Finset ℕ
  | .clone _ new, txs => insert new txs
  | .dropTx tx, txs => txs.erase tx
  | _, txs => txs

/-- What a call returns. -/
inductive Answer (T : Type) where
  | unit
  | closed (result : Bool)
  | received (result : Poll (Option T))
  | tried (result : Except TryRecvError T)
  | sent (result : Poll (Except SendError Unit))

namespace Handles

variable {S T W : Type} [Semaphore S]

/-- `channel`: one `Tx` and one `Rx`. -/
def new (semaphore : S) : Handles S T W :=
  { chan := (Chan.new semaphore).newTx
    txs := {0}
    rx := true
    accepted := []
    received := []
    polled := none }

/-- Some handle keeps `Chan` alive. -/
def alive (s : Handles S T W) : Prop := s.txs.Nonempty ∨ s.rx = true

instance (s : Handles S T W) : Decidable s.alive := by
  unfold alive
  infer_instance

/-- A handle has been dropped: the last one takes `Chan` along. -/
def release (s : Handles S T W) : Except Fault (Handles S T W) :=
  if s.alive then .ok s
  else do
    let chan ← s.chan.drop
    pure { s with chan }

/-- `Tx::clone`. -/
def clone (s : Handles S T W) (new : ℕ) : Handles S T W :=
  { s with chan := s.chan.newTx, txs := insert new s.txs }

/-- `Tx::drop`. -/
def dropTx (s : Handles S T W) (tx : ℕ) : Except Fault (Handles S T W) := do
  let chan ← s.chan.dropTx
  { s with chan, txs := s.txs.erase tx }.release

/-- `Tx::send`. -/
def send (s : Handles S T W) (value : T) :
    Except Fault (Except SendError Unit × Handles S T W) := do
  match ← s.chan.send value with
  | (.ok (), chan) => pure (.ok (), { s with chan, accepted := s.accepted ++ [value] })
  | (.error e, chan) => pure (.error e, { s with chan })

/-- `Rx::try_recv`. -/
def tryRecv (s : Handles S T W) : Except Fault (Except TryRecvError T × Handles S T W) := do
  match ← s.chan.tryRecv with
  | (.ok val, chan) => pure (.ok val, { s with chan, received := s.received ++ [val] })
  | (.error e, chan) => pure (.error e, { s with chan })

/-- `Rx::poll_recv`. -/
def recv [Waker W] (s : Handles S T W) (cx : W) :
    Except Fault (Poll (Option T) × Handles S T W) := do
  match ← s.chan.recv cx with
  | (.ready (some val), chan) =>
    pure (.ready (some val), { s with chan, received := s.received ++ [val], polled := none })
  | (.ready none, chan) => pure (.ready none, { s with chan, polled := none })
  | (.pending, chan) => pure (.pending, { s with chan, polled := some (cx, chan.woken.length) })

/-- `Rx::close`. -/
def close (s : Handles S T W) : Except Fault (Handles S T W) := do
  let chan ← s.chan.close
  pure { s with chan }

/-- `Rx::drop`. -/
def dropRx (s : Handles S T W) : Except Fault (Handles S T W) := do
  let chan ← s.chan.dropRx
  { s with chan, rx := false }.release

/-- Run one call. -/
def exec [Waker W] (s : Handles S T W) : Call W → Except Fault (Answer T × Handles S T W)
  | .clone _ new => pure (.unit, s.clone new)
  | .dropTx tx => do pure (.unit, ← s.dropTx tx)
  | .isClosed _ => pure (.closed s.chan.isClosed, s)
  | .recv cx => do
    let (r, s) ← s.recv cx
    pure (.received r, s)
  | .tryRecv => do
    let (r, s) ← s.tryRecv
    pure (.tried r, s)
  | .close => do pure (.unit, ← s.close)
  | .dropRx => do pure (.unit, ← s.dropRx)

/-- How the values accepted change in a call that would send `value` and returns an answer. -/
def Sends (value : Option T) (s t : Handles S T W) : Answer T → Prop
  | .sent (.ready (.ok ())) => ∃ v, value = some v ∧ t.accepted = s.accepted ++ [v]
  | .sent _ => t.accepted = s.accepted ∧ t.chan.queue = s.chan.queue
  | _ => t.accepted = s.accepted

/-- Only live handles are used. -/
def Allowed (s : Handles S T W) : Call W → Prop
  | .clone tx new => tx ∈ s.txs ∧ new ∉ s.txs
  | .dropTx tx => tx ∈ s.txs
  | .isClosed tx => tx ∈ s.txs
  | _ => s.rx = true

instance (s : Handles S T W) (c : Call W) : Decidable (s.Allowed c) := by
  cases c <;> unfold Allowed <;> infer_instance

end Handles

end LocalSync.Mpsc
