/-
  The bounded channel of `mpsc/bounded.rs`: a send is a future that acquires a
  slot first.

  The state adds to the channel and its handles the live send futures.  A
  future borrows its `Tx`, which cannot be dropped while the future lives, and
  holds the value until it returns.  While it is suspended it owns an `Acquire`
  for one permit, at its own address.
-/
import LocalSync.Lib.Run
import LocalSync.Mpsc.Handles

namespace LocalSync.Mpsc.Bounded

open Lib
open LocalSync.Semaphore (Inner Tracked AcquireError)

variable {P : PointerWidth} {T W : Type}

/-- Where a send future stands. -/
inductive Stage (T : Type) where
  /-- It has not been polled. -/
  | unresumed (value : T)
  /-- It awaits a slot. -/
  | suspended (value : T)
  /-- It has returned. -/
  | returned

/-- The value that a future still holds. -/
def Stage.value : Stage T → Option T
  | .unresumed value => some value
  | .suspended value => some value
  | .returned => none

/-- The future of `Tx::send`. -/
structure SendFuture (T : Type) where
  /-- The `Tx` it borrows. -/
  tx : ℕ
  stage : Stage T

/-- The bounded channel with its handles and its send futures. -/
structure Channel (P : PointerWidth) (T W : Type) where
  handles : Handles (Tracked P W) T W
  sends : Store Addr (SendFuture T)

/-- One call by a client. -/
inductive Action (T W : Type) where
  | call (c : Call W)
  /-- `Tx::send`: the future is created. -/
  | send (i : Addr) (tx : ℕ) (value : T)
  | poll (i : Addr) (cx : W)
  | drop (i : Addr)

namespace Channel

/-- `bounded::channel`. -/
def new (P : PointerWidth) (T W : Type) (buffer : ℕ) : Channel P T W :=
  { handles := Handles.new (Tracked.new P W buffer), sends := Store.empty }

/-- `semaphore.acquire(1).await`, from its start or from where it is suspended. -/
def acquireSlot [Waker W] (c : Chan (Tracked P W) T W) (i : Addr) (first : Bool) (cx : W) :
    Except Fault (Poll (Except AcquireError Unit) × Chan (Tracked P W) T W) := do
  let (r, semaphore) ← (c.semaphore.awaitOne i first cx).fault
  pure (r, { c with semaphore })

/-- Set the stage of the future at `i`, which borrows `tx`. -/
def setStage (s : Channel P T W) (i : Addr) (tx : ℕ) (stage : Stage T) : Channel P T W :=
  { s with sends := s.sends.insert i { tx, stage } }

/-- The body of `Tx::send`, from the start or from where it is suspended. -/
def resume [Waker W] (s : Channel P T W) (i : Addr) (tx : ℕ) (value : T) (first : Bool) (cx : W) :
    Except Fault (Poll (Except SendError Unit) × Channel P T W) := do
  -- acquire semaphore first
  let (r, chan) ← acquireSlot s.handles.chan i first cx
  let handles := { s.handles with chan }
  match r with
  | .pending => pure (.pending, { s with handles }.setStage i tx (.suspended value))
  | .ready (.error _) =>
    pure (.ready (.error .rxClosed), { s with handles }.setStage i tx .returned)
  | .ready (.ok ()) => do
    let (r, handles) ← handles.send value
    pure (.ready r, { s with handles }.setStage i tx .returned)

/-- The poll of a send future. -/
def pollSend [Waker W] (s : Channel P T W) (i : Addr) (cx : W) :
    Except Fault (Poll (Except SendError Unit) × Channel P T W) :=
  match s.sends.get? i with
  | none => .error .dangling
  | some { tx, stage := .unresumed value } => s.resume i tx value true cx
  | some { tx, stage := .suspended value } => s.resume i tx value false cx
  | some { stage := .returned, .. } => .error (.panic "`async fn` resumed after completion")

/-- The drop of a send future. -/
def dropSend (s : Channel P T W) (i : Addr) : Except Fault (Channel P T W) :=
  match s.sends.get? i with
  | none => .error .dangling
  | some { stage := .suspended _, .. } => do
    let semaphore ← (s.handles.chan.semaphore.drop i).fault
    pure
      { handles := { s.handles with chan := { s.handles.chan with semaphore } }
        sends := s.sends.erase i }
  | some _ => .ok { s with sends := s.sends.erase i }

/-- Run one call. -/
def exec [Waker W] (s : Channel P T W) : Action T W → Except Fault (Answer T × Channel P T W)
  | .call c => do
    let (answer, handles) ← s.handles.exec c
    pure (answer, { s with handles })
  | .send i tx value => pure (.unit, s.setStage i tx (.unresumed value))
  | .poll i cx => do
    let (r, s) ← s.pollSend i cx
    pure (.sent r, s)
  | .drop i => do pure (.unit, ← s.dropSend i)

/-- The value that a call sends. -/
def sentValue (s : Channel P T W) : Action T W → Option T
  | .poll i _ => (s.sends.get? i).bind fun f => f.stage.value
  | _ => none

/-- The futures that borrow `tx`. -/
def borrows (s : Channel P T W) (tx : ℕ) : Finset Addr :=
  s.sends.dom.filter fun i => (s.sends.get? i).any fun f => f.tx == tx

/-- The future at `i` has been created and has not returned. -/
def unfinished (s : Channel P T W) (i : Addr) : Bool :=
  (s.sends.get? i).any fun f => f.stage.value.isSome

/-- The future at `i` awaits a slot: its last poll returned `Pending`. -/
def suspended (s : Channel P T W) (i : Addr) : Bool :=
  (s.sends.get? i).any fun f =>
    match f.stage with
    | .suspended _ => true
    | _ => false

/-- The free slots: `available_permits` of the semaphore. -/
def available (s : Channel P T W) : ℕ := s.handles.chan.semaphore.inner.availablePermits

/-- The futures that await a slot although one is assigned to them already. -/
def assigned (s : Channel P T W) : Finset Addr :=
  s.sends.dom.filter fun i => s.suspended i && (s.handles.chan.semaphore.inner.acquires.get? i).any
    fun q => q.queued && q.node.state == 0

/-- Only live handles and futures are used, a future is created in free memory, a `Tx` that is
borrowed is not dropped, and no future is polled after it returned. -/
def Allowed (s : Channel P T W) : Action T W → Prop
  | .call (.dropTx tx) => s.handles.Allowed (.dropTx tx : Call W) ∧ s.borrows tx = ∅
  | .call c => s.handles.Allowed c
  | .send i tx _ => tx ∈ s.handles.txs ∧ s.sends.get? i = none
  | .poll i _ => s.unfinished i = true
  | .drop i => (s.sends.get? i).isSome = true

instance (s : Channel P T W) (c : Action T W) : Decidable (s.Allowed c) := by
  unfold Allowed
  split <;> infer_instance

/-- One step: a client makes an allowed call. -/
def Step [Waker W] (s : Channel P T W) (e : Action T W × Answer T) (t : Channel P T W) : Prop :=
  s.Allowed e.1 ∧ s.exec e.1 = .ok (e.2, t)

end Channel

end LocalSync.Mpsc.Bounded
