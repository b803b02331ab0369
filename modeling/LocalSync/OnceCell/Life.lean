/-
  The whole life of a `OnceCell`, and what a cell is for.

  `get_mut`, `into_inner` and the destructor need the cell for themselves: no
  future borrows it.  `Life` adds them to the calls of `System`.  What a caller
  does with the reference of `get_mut` is to put another value in the place of
  the old one; the log of the slot starts again with it.

  `Machine` is a cell without a slot to read, a flag to check and a semaphore:
  there is a value or there is none, and as long as there is none, who may
  initialise it is decided at a turnstile.
-/
import LocalSync.OnceCell
import LocalSync.Semaphore.Turnstile

namespace LocalSync.OnceCell

open Lib
open Semaphore (Turnstile)

variable {P : PointerWidth} {T E W : Type}

/-- `OnceCell::get_mut`: what the reference points to. -/
def getMut (c : OnceCell P T W) : Except Fault (Option T) :=
  if c.valueSet then do pure (some (← c.getUnchecked)) else .ok none

/-- `get_mut`, and `mem::replace` through the reference. -/
def replace (c : OnceCell P T W) (value : T) : Except Fault (Option T × OnceCell P T W) := do
  match ← c.getMut with
  | some old => pure (some old, { c with value := some value, written := [value] })
  | none => pure (none, c)

/-- `OnceCell::clone`; `copy` is the clone of a value. -/
def clone (c : OnceCell P T W) (copy : T → T) : Except Fault (OnceCell P T W) := do
  newWith P W ((← c.get).map copy)

/-- `OnceCell::eq`. -/
def eq [BEq T] (c other : OnceCell P T W) : Except Fault Bool := do
  pure ((← c.get) == (← other.get))

/-- A cell from its creation to its end. -/
structure Life (P : PointerWidth) (T W : Type) where
  system : System P T W
  /-- The cell has not been dropped, or consumed by `into_inner`. -/
  alive : Bool

namespace Life

/-- One step by a client. -/
inductive Action (T E W : Type) where
  | call (c : OnceCell.Action T E W)
  /-- `get_mut`, and a value to put in the place of the one there is. -/
  | replace (value : T)
  | intoInner
  | drop

/-- What a step returns. -/
inductive Answer (T E : Type) where
  | call (o : OnceCell.Answer T E)
  | replaced (old : Option T)
  | taken (result : Option T)
  /-- The value that the destructor drops. -/
  | dropped (value : Option T)
  deriving DecidableEq

/-- A cell that nobody has used. -/
def of (cell : OnceCell P T W) : Life P T W := { system := .of cell, alive := true }

/-- Run one step. -/
def exec [Waker W] (s : Life P T W) : Action T E W → Except Fault (Answer T E × Life P T W)
  | .call c => do
    let (o, system) ← s.system.exec c
    pure (.call o, { s with system })
  | .replace value => do
    let (old, cell) ← s.system.cell.replace value
    pure (.replaced old, { s with system := { s.system with cell } })
  | .intoInner => do
    let r ← s.system.cell.intoInner
    pure (.taken r, { s with alive := false })
  | .drop => do
    let value ← s.system.cell.dropped
    pure (.dropped value, { s with alive := false })

/-- Only a cell that is alive is used, and by one client alone where it has to be. -/
def Allowed (s : Life P T W) : Action T E W → Prop
  | .call c => s.alive = true ∧ s.system.Allowed c
  | .replace _ | .intoInner | .drop => s.alive = true ∧ s.system.futures.dom = ∅

instance (s : Life P T W) (c : Action T E W) : Decidable (s.Allowed c) := by
  cases c <;> unfold Allowed <;> infer_instance

/-- One step. -/
def Step [Waker W] (s : Life P T W) (e : Action T E W × Answer T E) (t : Life P T W) : Prop :=
  s.Allowed e.1 ∧ s.exec e.1 = .ok (e.2, t)

/-- The value in the cell, as long as there is a cell. -/
def held (s : Life P T W) : List T := if s.alive then s.system.cell.value.toList else []

/-- The value that a step brings to the cell. -/
def given : Action T E W → List T
  | .call (.set v) => [v]
  | .call (.initializer _ (.value v)) => [v]
  | .replace v => [v]
  | _ => []

/-- The value that a step leaves in the hands of its caller, or drops. -/
def gone : Action T E W × Answer T E → List T
  | (_, .call (.set (.error (.alreadyInitialized v)))) => [v]
  | (_, .call (.set (.error (.initializing v)))) => [v]
  | (_, .call (.taken r)) => r.toList
  | (.replace v, .replaced none) => [v]
  | (_, .replaced old) => old.toList
  | (_, .taken r) => r.toList
  | (_, .dropped value) => value.toList
  | _ => []

end Life

/-! ### What a cell is for -/

/-- A cell: its value, who may initialise it, and the calls that are under way. -/
structure Machine (T : Type) where
  value : Option T
  gate : Turnstile
  futures : Store Addr Future
  alive : Bool

namespace Machine

/-- A cell from `OnceCell::new`, with one permit to initialise it. -/
def new (T : Type) : Machine T :=
  { value := none, gate := .new 1, futures := Store.empty, alive := true }

/-- A cell that starts with a value, or without one. -/
def newWith : Option T → Machine T
  | some v => { value := some v, gate := (Turnstile.new 0).shut, futures := .empty, alive := true }
  | none => .new T

/-- Set where the future at `i` stands, and the gate. -/
def move (a : Machine T) (i : Addr) (gate : Turnstile) (stage : Stage) : Machine T :=
  { a with gate, futures := a.futures.modify i fun f => { f with stage } }

/-- The value is there for good: nobody has to wait. -/
def fill (a : Machine T) (value : T) : Machine T :=
  { a with value := some value, gate := a.gate.shut }

/-- The future at `i` asks who may initialise the cell. -/
def await (a : Machine T) (i : Addr) (first : Bool) : Answer T E × Machine T :=
  match a.value with
  | some v => (.value v, a.move i (a.gate.leave i) .returned)
  | none =>
    match a.gate.ask i first with
    | (.pending, gate) => (.pending, a.move i gate .waiting)
    | (.ready _, gate) => (.initializes, a.move i gate (.initializing 1))

/-- The poll of a future. -/
def poll (a : Machine T) (i : Addr) : Answer T E × Machine T :=
  match a.futures.get? i with
  | some { stage := .unresumed, .. } => a.await i true
  | some { stage := .waiting, .. } => a.await i false
  | _ => (.initializes, a)

/-- The initialiser of the future at `i` goes on. -/
def initializer (a : Machine T) (i : Addr) : Progress T E → Answer T E × Machine T
  | .pending => (.pending, a)
  | .value v => (.value v, (a.fill v).move i (a.fill v).gate .returned)
  | .error e => (.failed e, a.move i a.gate.letIn .returned)
  | .panic => (.unwound, a.move i a.gate.letIn .returned)

/-- The future at `i` goes away. -/
def cancel (a : Machine T) (i : Addr) : Machine T :=
  match a.futures.get? i with
  | some { stage := .waiting, .. } =>
    { a with gate := a.gate.leave i, futures := a.futures.erase i }
  | some { stage := .initializing _, .. } =>
    { a with gate := a.gate.letIn, futures := a.futures.erase i }
  | _ => { a with futures := a.futures.erase i }

/-- Write the value, if nobody has it in hand to do so. -/
def set (a : Machine T) (value : T) : Except (SetError T) Unit × Machine T :=
  match a.value with
  | some _ => (.error (.alreadyInitialized value), a)
  | none =>
    if 0 < a.gate.free then
      (.ok (), { a with gate := { a.gate with free := a.gate.free - 1 } }.fill value)
    else (.error (.initializing value), a)

/-- One call. -/
def call (a : Machine T) : Action T E W → Answer T E × Machine T
  | .create i kind =>
    (.unit, { a with futures := a.futures.insert i { kind, stage := .unresumed } })
  | .poll i _ => a.poll i
  | .initializer i progress => a.initializer i progress
  | .cancel i => (.unit, a.cancel i)
  | .set value => (.set (a.set value).1, (a.set value).2)
  | .get => (.got a.value, a)
  | .take => (.taken a.value, .new T)

/-- The value in the cell, as long as there is a cell. -/
def held (a : Machine T) : List T := if a.alive then a.value.toList else []

/-- One step in the life of a cell. -/
def exec (a : Machine T) : Life.Action T E W → Life.Answer T E × Machine T
  | .call c => (.call (a.call c).1, (a.call c).2)
  | .replace value => (.replaced a.value, { a with value := a.value.map fun _ => value })
  | .intoInner => (.taken a.value, { a with alive := false })
  | .drop => (.dropped a.value, { a with alive := false })

/-- What the future at `i` is about. -/
def stage (a : Machine T) (i : Addr) : Option Stage := (a.futures.get? i).map Future.stage

/-- The initialiser of `f` has been started, and fails only in `get_or_try_init`. -/
def mayProgress (f : Future) (progress : Progress T E) : Bool :=
  match f.stage, progress with
  | .initializing _, .error _ => f.kind == .tryInit
  | .initializing _, _ => true
  | _, _ => false

/-- What clients may do. -/
def AllowedCall (a : Machine T) : Action T E W → Prop
  | .create i _ => a.futures.get? i = none
  | .poll i _ => (a.stage i).any (· != .returned) = true
  | .initializer i progress => (a.futures.get? i).any (mayProgress · progress) = true
  | .cancel i => (a.futures.get? i).isSome = true
  | .take => a.futures.dom = ∅
  | _ => True

/-- Only a cell that is alive is used, and by one client alone where it has to be. -/
def Allowed (a : Machine T) : Life.Action T E W → Prop
  | .call c => a.alive = true ∧ a.AllowedCall c
  | .replace _ | .intoInner | .drop => a.alive = true ∧ a.futures.dom = ∅

/-- One step. -/
def Step (a : Machine T) (e : Life.Action T E W × Life.Answer T E) (b : Machine T) : Prop :=
  a.Allowed e.1 ∧ a.exec e.1 = (e.2, b)

end Machine

end LocalSync.OnceCell
