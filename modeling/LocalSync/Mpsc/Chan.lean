/-
  The channel of `mpsc/chan.rs`: the part that the bounded and the unbounded
  channel share.

  `Chan` is what the handles point to.  Beside its fields it records the
  wakers it has woken and the values it has dropped; nothing reads these logs.
  The operations of `Tx` and `Rx` act on it through their `Rc`, and appear here
  as functions on `Chan`; the handles themselves are in `Handles`.
-/
import LocalSync.Mpsc.Block
import LocalSync.Mpsc.Semaphore

namespace LocalSync.Mpsc

/-- `TryRecvError`. -/
inductive TryRecvError where
  /-- The channel is currently empty, but the senders have not yet disconnected. -/
  | empty
  /-- The channel's sending half has become disconnected. -/
  | disconnected
  deriving DecidableEq, Repr

/-- `SendError`. -/
inductive SendError where
  | rxClosed
  deriving DecidableEq, Repr

/-- `Chan`. -/
structure Chan (S T W : Type) where
  queue : Queue T
  semaphore : S
  rxWaker : Option W
  txCount : ℕ
  /-- The wakers of the receiver woken so far. -/
  woken : List W
  /-- The values dropped so far. -/
  dropped : List T

namespace Chan

variable {S T W : Type} [Semaphore S]

/-- `Chan::new`. -/
def new (semaphore : S) : Chan S T W :=
  { queue := Queue.new, semaphore, rxWaker := none, txCount := 0, woken := [], dropped := [] }

/-- Wake the receiver, if it has registered a waker. -/
def wakeRx (c : Chan S T W) : Chan S T W :=
  { c with rxWaker := none, woken := c.woken ++ c.rxWaker.toList }

/-- Register the waker of the current poll, unless the registered one would do. -/
def register [Waker W] (c : Chan S T W) (cx : W) : Chan S T W :=
  match c.rxWaker with
  | some inner => if !Waker.willWake inner cx then { c with rxWaker := some cx } else c
  | none => { c with rxWaker := some cx }

/-- `while !queue.is_empty() { drop(queue.pop_unchecked()) }`. -/
def drain : ℕ → Chan S T W → Except Fault (Chan S T W)
  | 0, _ => .error .diverges
  | fuel + 1, c =>
    if !c.queue.isEmpty then do
      let (val, queue) ← c.queue.popUnchecked
      drain fuel { c with queue, dropped := c.dropped ++ [val] }
    else .ok c

/-- `Chan::drop`: consume all elements, then drop all blocks of the queue. -/
def drop (c : Chan S T W) : Except Fault (Chan S T W) := do
  let c ← drain (c.queue.len + 1) c
  let queue ← c.queue.freeBlocks
  pure { c with queue }

/-! ### `Tx` -/

/-- `Tx::new`, and the same for `Tx::clone`. -/
def newTx (c : Chan S T W) : Chan S T W := { c with txCount := c.txCount + 1 }

/-- `Tx::send`. -/
def send (c : Chan S T W) (value : T) : Except Fault (Except SendError Unit × Chan S T W) := do
  -- check if the semaphore is closed
  if Semaphore.isClosed c.semaphore then pure (.error .rxClosed, c)
  else
    -- put data into the queue
    let queue ← c.queue.pushUnchecked value
    -- if rx waker is set, wake it
    pure (.ok (), { c with queue }.wakeRx)

/-- `Tx::is_closed`. -/
def isClosed (c : Chan S T W) : Bool := Semaphore.isClosed c.semaphore

/-- `Tx::drop`. -/
def dropTx (c : Chan S T W) : Except Fault (Chan S T W) := do
  let cnt := c.txCount
  assert (cnt != 0) "attempt to subtract with overflow"
  let c := { c with txCount := cnt - 1 }
  if cnt = 1 then
    let semaphore ← Semaphore.close c.semaphore
    pure { c with semaphore }.wakeRx
  else pure c

/-! ### `Rx` -/

/-- `Rx::try_recv`. -/
def tryRecv (c : Chan S T W) : Except Fault (Except TryRecvError T × Chan S T W) := do
  if !c.queue.isEmpty then
    let (val, queue) ← c.queue.popUnchecked
    let semaphore ← Semaphore.addPermits c.semaphore 1
    pure (.ok val, { c with queue, semaphore })
  else if c.txCount = 0 then pure (.error .disconnected, c)
  else pure (.error .empty, c)

/-- `Rx::recv`. -/
def recv [Waker W] (c : Chan S T W) (cx : W) :
    Except Fault (Poll (Option T) × Chan S T W) := do
  if !c.queue.isEmpty then
    let (val, queue) ← c.queue.popUnchecked
    let semaphore ← Semaphore.addPermits c.semaphore 1
    pure (.ready (some val), { c with queue, semaphore })
  else if c.txCount = 0 then pure (.ready none, c)
  else pure (.pending, c.register cx)

/-- `Rx::close`. -/
def close (c : Chan S T W) : Except Fault (Chan S T W) := do
  let semaphore ← Semaphore.close c.semaphore
  pure { c with semaphore }

/-- `Rx::drop`. -/
def dropRx (c : Chan S T W) : Except Fault (Chan S T W) := do
  -- close semaphore on close, this will make tx send await return
  let c ← c.close
  -- consume all elements
  let len := c.queue.len
  let c ← drain (len + 1) c
  let semaphore ← Semaphore.addPermits c.semaphore len
  pure { c with semaphore }

end Chan

end LocalSync.Mpsc
