/-
  `OnceCell` of `once_cell.rs`, and the calls on it as a transition system.

  The slot is an `Option`: `none` stands for `MaybeUninit::uninit()`, and
  reading it is a fault.  The cell records the values written into the slot;
  nothing reads this log.

  `get_or_init` and `get_or_try_init` are futures.  A poll runs until the call
  waits for the permit, returns, or hands over to its initialiser; what the
  initialiser does with the poll (suspend, finish, fail or panic) is a step of
  its own, so that calls which the initialiser makes on the cell are steps in
  between.  A future owns its `Acquire` while it waits, at its own address, and
  its permit while it initialises.
-/
import LocalSync.Lib.Run
import LocalSync.Semaphore.History

namespace LocalSync

open Lib
open Semaphore (Tracked)

/-- `SetError`. -/
inductive SetError (T : Type) where
  /-- The cell was already initialized when `set` was called. -/
  | alreadyInitialized (value : T)
  /-- The cell is currently being initialized. -/
  | initializing (value : T)
  deriving DecidableEq

/-- `OnceCell`. -/
structure OnceCell (P : PointerWidth) (T W : Type) where
  valueSet : Bool
  value : Option T
  semaphore : Tracked P W
  /-- The values written into the slot. -/
  written : List T

namespace OnceCell

variable {P : PointerWidth} {T E W : Type}

/-- `OnceCell::new`. -/
def new (P : PointerWidth) (T W : Type) : OnceCell P T W :=
  { valueSet := false, value := none, semaphore := Tracked.new P W 1, written := [] }

/-- `OnceCell::from`. -/
def fromValue (P : PointerWidth) (W : Type) (value : T) : Except Fault (OnceCell P T W) := do
  let semaphore ← (Tracked.new P W 0).close.fault
  pure { valueSet := true, value := some value, semaphore, written := [value] }

/-- `OnceCell::new_with`. -/
def newWith (P : PointerWidth) (W : Type) : Option T → Except Fault (OnceCell P T W)
  | some v => fromValue P W v
  | none => .ok (new P T W)

/-- `OnceCell::initialized`. -/
def initialized (c : OnceCell P T W) : Bool := c.valueSet

/-- `OnceCell::get_unchecked`. -/
def getUnchecked (c : OnceCell P T W) : Except Fault T :=
  match c.value with
  | some v => .ok v
  | none => .error .uninit

/-- `SemaphorePermit::drop`, for a guard that holds `permits`. -/
def dropPermit (c : OnceCell P T W) (permits : UInt32) : Except Fault (OnceCell P T W) := do
  let semaphore ← (c.semaphore.release permits.toNat).fault
  pure { c with semaphore }

/-- `SemaphorePermit::forget`: whatever the guard holds, nothing is left when it is dropped. -/
def forgetPermit (c : OnceCell P T W) (_permits : UInt32) : Except Fault (OnceCell P T W) :=
  c.dropPermit 0

/-- `OnceCell::set_value`. -/
def setValue (c : OnceCell P T W) (value : T) (permits : UInt32) :
    Except Fault (T × OnceCell P T W) := do
  let c := { c with value := some value, written := c.written ++ [value] }
  let c := { c with valueSet := true }
  let semaphore ← c.semaphore.close.fault
  let c ← { c with semaphore }.forgetPermit permits
  pure (← c.getUnchecked, c)

/-- `OnceCell::get`. -/
def get (c : OnceCell P T W) : Except Fault (Option T) :=
  if c.initialized then do pure (some (← c.getUnchecked)) else .ok none

/-- `OnceCell::set`. -/
def set (c : OnceCell P T W) (value : T) :
    Except Fault (Except (SetError T) Unit × OnceCell P T W) := do
  if c.initialized then pure (.error (.alreadyInitialized value), c)
  else
    -- another task might be initializing the cell
    match ← (c.semaphore.tryAcquire 1).fault with
    | (.ok (), semaphore) => do
      assert (!c.initialized) "assertion failed: !self.initialized()"
      let (_, c) ← { c with semaphore }.setValue value 1
      pure (.ok (), c)
    | (.error .noPermits, semaphore) => pure (.error (.initializing value), { c with semaphore })
    | (.error .closed, semaphore) =>
      pure (.error (.alreadyInitialized value), { c with semaphore })

/-- `OnceCell::drop`, with the value that it drops in place. -/
def dropped (c : OnceCell P T W) : Except Fault (Option T) := do
  if c.valueSet then pure (some (← c.getUnchecked)) else pure none

/-- `OnceCell::drop`. -/
def drop (c : OnceCell P T W) : Except Fault Unit := do
  let _ ← c.dropped
  pure ()

/-- `OnceCell::into_inner`. -/
def intoInner (c : OnceCell P T W) : Except Fault (Option T) := do
  if c.valueSet then
    let v ← c.getUnchecked
    -- set to uninitialized for the destructor to work properly
    { c with valueSet := false, value := none }.drop
    pure (some v)
  else
    c.drop
    pure none

/-- `OnceCell::take`: the value, and the cell that is left. -/
def take (c : OnceCell P T W) : Except Fault (Option T × OnceCell P T W) := do
  let v ← c.intoInner
  pure (v, new P T W)

/-! ### The calls -/

/-- Which function a future belongs to. -/
inductive Kind where
  /-- `get_or_init`. -/
  | init
  /-- `get_or_try_init`. -/
  | tryInit
  deriving DecidableEq

/-- Where a future stands. -/
inductive Stage where
  /-- It has not been polled. -/
  | unresumed
  /-- It awaits the permit. -/
  | waiting
  /-- It holds its guard, and its initialiser has started. -/
  | initializing (permits : UInt32)
  /-- It has returned, or unwound. -/
  | returned
  deriving DecidableEq

/-- The future of `get_or_init` or `get_or_try_init`. -/
structure Future where
  kind : Kind
  stage : Stage

/-- What an initialiser does when it is polled. -/
inductive Progress (T E : Type) where
  | pending
  | value (v : T)
  /-- `Err`, for `get_or_try_init`. -/
  | error (e : E)
  | panic

/-- The cell and the live futures that borrow it. -/
structure System (P : PointerWidth) (T W : Type) where
  cell : OnceCell P T W
  futures : Store Addr Future

/-- One step by a client. -/
inductive Action (T E W : Type) where
  /-- `get_or_init` or `get_or_try_init`: the future is created. -/
  | create (i : Addr) (kind : Kind)
  | poll (i : Addr) (cx : W)
  /-- The initialiser of the future at `i` is polled. -/
  | initializer (i : Addr) (progress : Progress T E)
  /-- The future is dropped. -/
  | cancel (i : Addr)
  | set (value : T)
  | get
  | take

/-- What a step returns. -/
inductive Answer (T E : Type) where
  | unit
  | pending
  /-- A reference to the value. -/
  | value (v : T)
  /-- The error of the initialiser. -/
  | failed (e : E)
  /-- The initialiser is polled next. -/
  | initializes
  /-- The panic of the initialiser. -/
  | unwound
  | set (result : Except (SetError T) Unit)
  | got (result : Option T)
  | taken (result : Option T)
  deriving DecidableEq

namespace System

/-- The cell without any future. -/
def of (cell : OnceCell P T W) : System P T W := { cell, futures := Store.empty }

/-- Set where the future at `i` stands. -/
def setStage (s : System P T W) (i : Addr) (stage : Stage) : System P T W :=
  { s with futures := s.futures.modify i fun f => { f with stage } }

/-- The body of a call from `self.semaphore.acquire().await` on. -/
def await [Waker W] (s : System P T W) (i : Addr) (first : Bool) (cx : W) :
    Except Fault (Answer T E × System P T W) := do
  let (r, semaphore) ← (s.cell.semaphore.awaitOne i first cx).fault
  let cell := { s.cell with semaphore }
  match r with
  | .pending => pure (.pending, { s with cell }.setStage i .waiting)
  | .ready (.ok ()) => do
    assert (!cell.initialized) "assertion failed: !self.initialized()"
    pure (.initializes, { s with cell }.setStage i (.initializing 1))
  | .ready (.error _) => do
    assert cell.initialized "assertion failed: self.initialized()"
    let v ← cell.getUnchecked
    pure (.value v, { s with cell }.setStage i .returned)

/-- The poll of a future. -/
def poll [Waker W] (s : System P T W) (i : Addr) (cx : W) :
    Except Fault (Answer T E × System P T W) :=
  match s.futures.get? i with
  | none => .error .dangling
  | some { stage := .unresumed, .. } =>
    if s.cell.initialized then do
      let v ← s.cell.getUnchecked
      pure (.value v, s.setStage i .returned)
    else s.await i true cx
  | some { stage := .waiting, .. } => s.await i false cx
  | some { stage := .initializing _, .. } => .ok (.initializes, s)
  | some { stage := .returned, .. } => .error (.panic "`async fn` resumed after completion")

/-- The poll of the initialiser of the future at `i`, and what the call does with the result. -/
def initializer (s : System P T W) (i : Addr) (progress : Progress T E) :
    Except Fault (Answer T E × System P T W) :=
  match s.futures.get? i with
  | some { stage := .initializing permits, .. } =>
    match progress with
    | .pending => .ok (.pending, s)
    | .value v => do
      let (v, cell) ← s.cell.setValue v permits
      pure (.value v, { s with cell }.setStage i .returned)
    | .error e => do
      let cell ← s.cell.dropPermit permits
      pure (.failed e, { s with cell }.setStage i .returned)
    | .panic => do
      -- unwinding drops the guard
      let cell ← s.cell.dropPermit permits
      pure (.unwound, { s with cell }.setStage i .returned)
  | _ => .error .dangling

/-- The drop of a future. -/
def cancel (s : System P T W) (i : Addr) : Except Fault (System P T W) :=
  match s.futures.get? i with
  | none => .error .dangling
  | some { stage := .waiting, .. } => do
    let semaphore ← (s.cell.semaphore.drop i).fault
    pure { cell := { s.cell with semaphore }, futures := s.futures.erase i }
  | some { stage := .initializing permits, .. } => do
    let cell ← s.cell.dropPermit permits
    pure { cell, futures := s.futures.erase i }
  | some _ => .ok { s with futures := s.futures.erase i }

/-- Run one step. -/
def exec [Waker W] (s : System P T W) :
    Action T E W → Except Fault (Answer T E × System P T W)
  | .create i kind =>
    .ok (.unit, { s with futures := s.futures.insert i { kind, stage := .unresumed } })
  | .poll i cx => s.poll i cx
  | .initializer i progress => s.initializer i progress
  | .cancel i => do pure (.unit, ← s.cancel i)
  | .set value => do
    let (r, cell) ← s.cell.set value
    pure (.set r, { s with cell })
  | .get => do
    let r ← s.cell.get
    pure (.got r, s)
  | .take => do
    let (r, cell) ← s.cell.take
    pure (.taken r, { s with cell })

/-- Where the future at `i` stands. -/
def stage (s : System P T W) (i : Addr) : Option Stage := (s.futures.get? i).map Future.stage

/-- The future at `i` awaits the permit. -/
def waiting (s : System P T W) (i : Addr) : Bool := s.stage i == some .waiting

/-- What clients may do: a future is created in free memory and not polled after it returned, only
an initialiser that has been started is polled, only that of `get_or_try_init` fails, and `take`
has the cell for itself. -/
def Allowed (s : System P T W) : Action T E W → Prop
  | .create i _ => s.futures.get? i = none
  | .poll i _ => (s.stage i).any (· != .returned) = true
  | .initializer i progress => (s.futures.get? i).any (fun f =>
      match f.stage, progress with
      | .initializing _, .error _ => f.kind == .tryInit
      | .initializing _, _ => true
      | _, _ => false) = true
  | .cancel i => (s.futures.get? i).isSome = true
  | .take => s.futures.dom = ∅
  | _ => True

instance (s : System P T W) (c : Action T E W) : Decidable (s.Allowed c) := by
  cases c <;> unfold Allowed <;> infer_instance

/-- One step: a client does something that is allowed. -/
def Step [Waker W] (s : System P T W) (e : Action T E W × Answer T E) (t : System P T W) : Prop :=
  s.Allowed e.1 ∧ s.exec e.1 = .ok (e.2, t)

end System

end OnceCell

end LocalSync
