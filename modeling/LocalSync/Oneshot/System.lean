/-
  The handles of a oneshot channel, and the calls on them as a transition
  system.

  `strong` counts the `Rc`s that point to the shared state; when the last one is
  dropped, the state is dropped with its fields.  A handle is `none` once it has
  been consumed or dropped; a receiver whose `inner` is `None` has received all
  that it will.  The calls of both ends are the steps, in any order.
-/
import LocalSync.Lib.Run
import LocalSync.Oneshot.Inner

namespace LocalSync.Oneshot

open Lib

/-- `Sender`. -/
structure Sender where
  /-- `inner` is `Some`. -/
  inner : Bool
  deriving DecidableEq

/-- `Receiver`. -/
structure Receiver where
  /-- `inner` is `Some`. -/
  inner : Bool
  deriving DecidableEq

/-- The shared state and the handles. -/
structure System (P : PointerWidth) (T W : Type) where
  inner : Inner P T W
  strong : ℕ
  tx : Option Sender
  rx : Option Receiver

/-- A call by a client. -/
inductive Action (T W : Type) where
  /-- `Sender::poll_closed`, which is also what a poll of `Sender::closed` does. -/
  | pollClosed (cx : W)
  | isClosed
  | send (t : T)
  /-- The sender is dropped. -/
  | dropTx
  /-- The receiver is polled. -/
  | poll (cx : W)
  | tryRecv
  | close
  /-- The receiver is dropped. -/
  | dropRx

/-- What a call returns. -/
inductive Answer (T : Type) where
  | unit
  | closed (result : Poll Unit)
  | isClosed (result : Bool)
  | sent (result : Except T Unit)
  | received (result : Poll (Except RecvError T))
  | tried (result : Except TryRecvError T)
  /-- It panicked. -/
  | unwound
  deriving DecidableEq

variable {P : PointerWidth} {T W : Type}

/-- `channel`. -/
def channel (P : PointerWidth) (T W : Type) : System P T W :=
  { inner := Inner.new P T W, strong := 2, tx := some { inner := true },
    rx := some { inner := true } }

namespace System

/-- An `Rc` is dropped. -/
def dropRc (s : System P T W) : Except Fault (System P T W) := do
  let strong := s.strong - 1
  if strong = 0 then
    let inner ← s.inner.drop
    pure { s with strong, inner }
  else pure { s with strong }

/-! ### The sender -/

/-- `self.inner.as_ref().unwrap()`. -/
def txInner (s : System P T W) : Except Fault (Inner P T W) :=
  match s.tx with
  | none => .error .dangling
  | some { inner := false } => .error (.panic "called `Option::unwrap()` on a `None` value")
  | some { inner := true } => .ok s.inner

/-- `Sender::is_closed`. -/
def isClosed (s : System P T W) : Except Fault Bool := do
  let inner ← s.txInner
  pure inner.state.isClosed

/-- `Sender::poll_closed`. -/
def pollClosed [Waker W] (s : System P T W) (cx : W) : Except Fault (Poll Unit × System P T W) := do
  let (r, inner) ← (← s.txInner).pollClosed cx
  pure (r, { s with inner })

/-- `Sender::send`. The sender is dropped without its `inner`, so its destructor does nothing. -/
def send (s : System P T W) (t : T) : Except Fault (Except T Unit × System P T W) := do
  let inner := (← s.txInner).setValue t
  let (sent, inner) ← inner.complete
  if !sent then
    match inner.consumeValue with
    | (some t, inner) => do pure (.error t, ← { s with tx := none, inner }.dropRc)
    | (none, _) => .error (.panic "called `Option::unwrap()` on a `None` value")
  else pure (.ok (), ← { s with tx := none, inner }.dropRc)

/-- `Sender::drop`. -/
def dropTx (s : System P T W) : Except Fault (System P T W) :=
  match s.tx with
  | none => .error .dangling
  | some { inner := false } => .ok { s with tx := none }
  | some { inner := true } => do
    let (_, inner) ← s.inner.complete
    { s with tx := none, inner }.dropRc

/-! ### The receiver -/

/-- `Receiver::close`. -/
def close (s : System P T W) : Except Fault (System P T W) :=
  match s.rx with
  | none => .error .dangling
  | some { inner := false } => .ok s
  | some { inner := true } => do
    let inner ← s.inner.close
    pure { s with inner }

/-- `self.inner = None` in the receiver. -/
def finish (s : System P T W) : Except Fault (System P T W) :=
  { s with rx := some { inner := false } }.dropRc

/-- `Receiver::try_recv`. -/
def tryRecv (s : System P T W) : Except Fault (Except TryRecvError T × System P T W) :=
  match s.rx with
  | none => .error .dangling
  | some { inner := false } => .ok (.error .closed, { s with rx := some { inner := false } })
  | some { inner := true } =>
    let state := s.inner.state
    if state.isComplete then
      match s.inner.consumeValue with
      | (some value, inner) => do pure (.ok value, ← { s with inner }.finish)
      | (none, inner) => do pure (.error .closed, ← { s with inner }.finish)
    else if state.isClosed then do pure (.error .closed, ← s.finish)
    -- not ready, this does not clear `inner`
    else .ok (.error .empty, s)

/-- `Receiver::poll`. An error does not clear `inner`. -/
def poll [Waker W] (s : System P T W) (cx : W) :
    Except Fault (Poll (Except RecvError T) × System P T W) :=
  match s.rx with
  | none => .error .dangling
  | some { inner := false } => .error (.panic "called after complete")
  | some { inner := true } => do
    match ← s.inner.pollRecv cx with
    | (.ready (.ok value), inner) => do pure (.ready (.ok value), ← { s with inner }.finish)
    | (r, inner) => pure (r, { s with inner })

/-- `Receiver::drop`. -/
def dropRx (s : System P T W) : Except Fault (System P T W) :=
  match s.rx with
  | none => .error .dangling
  | some { inner := false } => .ok { s with rx := none }
  | some { inner := true } => do
    let inner ← s.inner.close
    { s with rx := none, inner }.dropRc

/-! ### The steps -/

/-- Run one call. A poll that panics has changed nothing, and the client may go on. -/
def exec [Waker W] (s : System P T W) : Action T W → Except Fault (Answer T × System P T W)
  | .pollClosed cx => do
    let (r, s) ← s.pollClosed cx
    pure (.closed r, s)
  | .isClosed => do
    let r ← s.isClosed
    pure (.isClosed r, s)
  | .send t => do
    let (r, s) ← s.send t
    pure (.sent r, s)
  | .dropTx => do pure (.unit, ← s.dropTx)
  | .poll cx =>
    match s.poll cx with
    | .ok (r, s) => .ok (.received r, s)
    | .error (.panic _) => .ok (.unwound, s)
    | .error e => .error e
  | .tryRecv => do
    let (r, s) ← s.tryRecv
    pure (.tried r, s)
  | .close => do pure (.unit, ← s.close)
  | .dropRx => do pure (.unit, ← s.dropRx)

/-- Only handles that are there are used. -/
def Allowed (s : System P T W) : Action T W → Prop
  | .pollClosed _ | .isClosed | .send _ | .dropTx => s.tx.isSome = true
  | .poll _ | .tryRecv | .close | .dropRx => s.rx.isSome = true

instance (s : System P T W) (c : Action T W) : Decidable (s.Allowed c) := by
  cases c <;> unfold Allowed <;> infer_instance

/-- One step: a client makes an allowed call. -/
def Step [Waker W] (s : System P T W) (e : Action T W × Answer T) (t : System P T W) : Prop :=
  s.Allowed e.1 ∧ s.exec e.1 = .ok (e.2, t)

end System

end LocalSync.Oneshot
