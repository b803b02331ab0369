/-
  The state that both ends of a oneshot channel share (`Inner` of `oneshot.rs`).

  Four flags in one word say what the slots hold.  The `set_*` functions store
  the new word and return it, so here they are one function from the old word to
  the new one.  A slot for a waker is an `Option`, and reading it while it is
  empty is a fault; `value` is an `Option` in the source too.  The slots record
  what happens to their wakers, and `dropped` the values that were dropped in
  place; nothing reads these lists.
-/
import LocalSync.Lib.Flags
import LocalSync.Semaphore.Inner

namespace LocalSync.Oneshot

open Lib

/-! ### Flags -/

/-- The flags of the state word. -/
inductive Flag where
  | rxTaskSet
  | valueSent
  | closed
  | txTaskSet
  deriving DecidableEq

/-- `State`. -/
structure State (P : PointerWidth) where
  word : BitVec P.bits
  deriving DecidableEq

namespace State

variable {P : PointerWidth}

/-- `RX_TASK_SET`, `VALUE_SENT`, `CLOSED` and `TX_TASK_SET`. -/
def mask : Flag → ℕ
  | .rxTaskSet => 0b00001
  | .valueSent => 0b00010
  | .closed => 0b00100
  | .txTaskSet => 0b01000

/-- The flags, in a word of any width. -/
def flags (P : PointerWidth) : Flags Flag P.bits where
  mask f := BitVec.ofNat P.bits (mask f)
  mask_ne f h := by
    have hbits : 2 ^ 16 ≤ 2 ^ P.bits := Nat.pow_le_pow_right (by decide) P.le_bits
    have hval := congrArg BitVec.toNat h
    rw [BitVec.toNat_ofNat, BitVec.toNat_ofNat, Nat.zero_mod] at hval
    have hlt : mask f < 2 ^ P.bits := by
      cases f <;> simp only [mask] <;> omega
    rw [Nat.mod_eq_of_lt hlt] at hval
    cases f <;> cases hval
  disjoint f g h := by
    have hand : mask f &&& mask g = 0 := by
      cases f <;> cases g <;> first | rfl | exact absurd rfl h
    rw [← BitVec.ofNat_and, hand]

/-- `State::new`. -/
def new : State P := ⟨0#P.bits⟩

/-- `State::is_complete`. -/
def isComplete (s : State P) : Bool := (flags P).has s.word .valueSent

/-- `State::set_complete`. -/
def setComplete (s : State P) : State P := ⟨(flags P).set s.word .valueSent⟩

/-- `State::is_rx_task_set`. -/
def isRxTaskSet (s : State P) : Bool := (flags P).has s.word .rxTaskSet

/-- `State::set_rx_task`. -/
def setRxTask (s : State P) : State P := ⟨(flags P).set s.word .rxTaskSet⟩

/-- `State::unset_rx_task`. -/
def unsetRxTask (s : State P) : State P := ⟨(flags P).unset s.word .rxTaskSet⟩

/-- `State::is_closed`. -/
def isClosed (s : State P) : Bool := (flags P).has s.word .closed

/-- `State::set_closed`. -/
def setClosed (s : State P) : State P := ⟨(flags P).set s.word .closed⟩

/-- `State::set_tx_task`. -/
def setTxTask (s : State P) : State P := ⟨(flags P).set s.word .txTaskSet⟩

/-- `State::unset_tx_task`. -/
def unsetTxTask (s : State P) : State P := ⟨(flags P).unset s.word .txTaskSet⟩

/-- `State::is_tx_task_set`. -/
def isTxTaskSet (s : State P) : Bool := (flags P).has s.word .txTaskSet

end State

/-! ### The waker slots -/

/-- `Task`. -/
structure Task (W : Type) where
  /-- The slot; `none` stands for `MaybeUninit::uninit()`. -/
  waker : Option W
  /-- The clones written into the slot. -/
  cloned : List W
  /-- The wakers dropped in place. -/
  dropped : List W
  /-- The wakers woken in place. -/
  woken : List W

namespace Task

variable {W : Type}

/-- A slot that was never written. -/
def uninit : Task W := { waker := none, cloned := [], dropped := [], woken := [] }

/-- `Task::with_task`: the waker it passes on. -/
def withTask (self : Task W) : Except Fault W :=
  match self.waker with
  | some w => .ok w
  | none => .error .uninit

/-- `Task::will_wake`. -/
def willWake [Waker W] (self : Task W) (cx : W) : Except Fault Bool := do
  let w ← self.withTask
  pure (Waker.willWake w cx)

/-- `Task::with_task` with `Waker::wake_by_ref`. -/
def wakeByRef (self : Task W) : Except Fault (Task W) := do
  let w ← self.withTask
  pure { self with woken := self.woken ++ [w] }

/-- `Task::drop_task`. -/
def dropTask (self : Task W) : Except Fault (Task W) := do
  let w ← self.withTask
  pure { self with waker := none, dropped := self.dropped ++ [w] }

/-- `Task::set_task`: a waker that is in the slot is forgotten, not dropped. -/
def setTask (self : Task W) (cx : W) : Task W :=
  { self with waker := some cx, cloned := self.cloned ++ [cx] }

end Task

/-! ### `Inner` -/

/-- `RecvError`. -/
structure RecvError where
  deriving DecidableEq

/-- `TryRecvError`. -/
inductive TryRecvError where
  | empty
  | closed
  deriving DecidableEq

/-- `Inner`. -/
structure Inner (P : PointerWidth) (T W : Type) where
  state : State P
  value : Option T
  txTask : Task W
  rxTask : Task W
  /-- The values dropped in place. -/
  dropped : List T

namespace Inner

variable {P : PointerWidth} {T W : Type}

/-- The state that `channel` builds. -/
def new (P : PointerWidth) (T W : Type) : Inner P T W :=
  { state := State.new, value := none, txTask := Task.uninit, rxTask := Task.uninit, dropped := [] }

/-- `*ptr = Some(t)`, in `Sender::send`. -/
def setValue (self : Inner P T W) (t : T) : Inner P T W :=
  { self with value := some t, dropped := self.dropped ++ self.value.toList }

/-- `Inner::consume_value`. -/
def consumeValue (self : Inner P T W) : Option T × Inner P T W :=
  (self.value, { self with value := none })

/-- `Inner::complete`. -/
def complete (self : Inner P T W) : Except Fault (Bool × Inner P T W) := do
  let prev := self.state.setComplete
  let self := { self with state := prev }
  if prev.isClosed then return (false, self)
  if prev.isRxTaskSet then
    return (true, { self with rxTask := ← self.rxTask.wakeByRef })
  return (true, self)

/-- The end of `Inner::poll_recv` once the channel is complete. -/
def recvValue (self : Inner P T W) : Poll (Except RecvError T) × Inner P T W :=
  match self.consumeValue with
  | (some value, self) => (.ready (.ok value), self)
  | (none, self) => (.ready (.error ⟨⟩), self)

/-- `Inner::poll_recv`. -/
def pollRecv [Waker W] (self : Inner P T W) (cx : W) :
    Except Fault (Poll (Except RecvError T) × Inner P T W) := do
  let mut self := self
  let mut state := self.state
  if state.isComplete then
    return self.recvValue
  else if state.isClosed then
    return (.ready (.error ⟨⟩), self)
  else
    if state.isRxTaskSet then
      -- check if the task is still the same
      let willNotify ← self.rxTask.willWake cx
      if !willNotify then
        state := self.state.unsetRxTask
        self := { self with state }
        if state.isComplete then
          -- set the flag again so that the waker is released in drop
          self := { self with state := self.state.setRxTask }
          return self.recvValue
        else
          self := { self with rxTask := ← self.rxTask.dropTask }
    if !state.isRxTaskSet then
      self := { self with rxTask := self.rxTask.setTask cx }
      state := self.state.setRxTask
      self := { self with state }
      if state.isComplete then
        return self.recvValue
      else
        return (.pending, self)
    else
      return (.pending, self)

/-- `Inner::close`. -/
def close (self : Inner P T W) : Except Fault (Inner P T W) := do
  let prev := self.state.setClosed
  let self := { self with state := prev }
  if prev.isTxTaskSet && !prev.isComplete then
    return { self with txTask := ← self.txTask.wakeByRef }
  return self

/-- `Inner::drop`, and the drop of the fields after it. -/
def drop (self : Inner P T W) : Except Fault (Inner P T W) := do
  let mut self := self
  let state := self.state
  if state.isRxTaskSet then
    self := { self with rxTask := ← self.rxTask.dropTask }
  if state.isTxTaskSet then
    self := { self with txTask := ← self.txTask.dropTask }
  return { self with value := none, dropped := self.dropped ++ self.value.toList }

/-- The body of `Sender::poll_closed`. -/
def pollClosed [Waker W] (self : Inner P T W) (cx : W) :
    Except Fault (Poll Unit × Inner P T W) := do
  let mut self := self
  let mut state := self.state
  if state.isClosed then
    return (.ready (), self)
  if state.isTxTaskSet then
    let willNotify ← self.txTask.willWake cx
    if !willNotify then
      state := self.state.unsetTxTask
      self := { self with state }
      if state.isClosed then
        -- set the flag again so that the waker is released in drop
        self := { self with state := self.state.setTxTask }
        return (.ready (), self)
      else
        self := { self with txTask := ← self.txTask.dropTask }
  if !state.isTxTaskSet then
    self := { self with txTask := self.txTask.setTask cx }
    state := self.state.setTxTask
    self := { self with state }
    if state.isClosed then
      return (.ready (), self)
  return (.pending, self)

end Inner

end LocalSync.Oneshot
