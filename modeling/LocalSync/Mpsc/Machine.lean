/-
  What the channels are for, without blocks, counters, wakers and pointers.

  `Machine` is a list of values with a gate in front of it.  The calls on the
  handles are the same for both channels, and use the gate only as the code uses
  its semaphore: they give slots back to it, shut it, and ask whether it is shut.

  The unbounded channel has a plain flag for a gate.  The gate of the bounded
  channel is a `Turnstile`, whose permits are the slots.

  A machine answers every call in one way, so that whatever a channel does is
  fixed once it has been shown to follow its machine.
-/
import LocalSync.Mpsc.Bounded
import LocalSync.Mpsc.Unbounded
import LocalSync.Semaphore.Turnstile

namespace LocalSync.Mpsc

open Lib
open LocalSync.Semaphore (Turnstile)

variable {G T W : Type}

/-- What a machine asks of its gate. -/
class Gate (G : Type) where
  /-- Slots come back. -/
  give : G → ℕ → G
  shut : G → G
  isShut : G → Bool
  isShut_give : ∀ g n, isShut (give g n) = isShut g
  isShut_shut : ∀ g, isShut (shut g) = true

/-- A gate without slots. -/
instance : Gate Bool where
  give g _ := g
  shut _ := true
  isShut g := g
  isShut_give _ _ := rfl
  isShut_shut _ := rfl

/-- A channel: the values that can be received, and who holds it. -/
structure Machine (G T : Type) where
  /-- The values in the channel, the oldest one first. -/
  queue : List T
  gate : G
  /-- The live `Tx`s. -/
  txs : Finset ℕ
  /-- `Rx` is alive. -/
  rx : Bool

namespace Machine

/-- A new channel, with one `Tx` and one `Rx`. -/
def new (T : Type) (gate : G) : Machine G T := { queue := [], gate, txs := {0}, rx := true }

/-- A value goes in. -/
def push (a : Machine G T) (value : T) : Machine G T := { a with queue := a.queue ++ [value] }

variable [Gate G]

/-- Take out the oldest value, whose slot comes back. -/
def pop (a : Machine G T) : Machine G T :=
  { a with queue := a.queue.tail, gate := Gate.give a.gate 1 }

/-- A call through a handle. -/
def call (a : Machine G T) : Call W → Answer T × Machine G T
  | .clone _ new => (.unit, { a with txs := insert new a.txs })
  | .dropTx tx =>
    -- the last sender shuts the gate
    (.unit, { a with
      txs := a.txs.erase tx
      gate := if a.txs = {tx} then Gate.shut a.gate else a.gate })
  | .isClosed _ => (.closed (Gate.isShut a.gate), a)
  | .recv _ =>
    match a.queue with
    | v :: _ => (.received (.ready (some v)), a.pop)
    | [] => (.received (if a.txs = ∅ then .ready none else .pending), a)
  | .tryRecv =>
    match a.queue with
    | v :: _ => (.tried (.ok v), a.pop)
    | [] => (.tried (.error (if a.txs = ∅ then .disconnected else .empty)), a)
  | .close => (.unit, { a with gate := Gate.shut a.gate })
  | .dropRx =>
    (.unit, { a with
      queue := []
      gate := Gate.give (Gate.shut a.gate) a.queue.length
      rx := false })

/-- Only live handles are used. -/
def Allowed (a : Machine G T) : Call W → Prop
  | .clone tx new => tx ∈ a.txs ∧ new ∉ a.txs
  | .dropTx tx => tx ∈ a.txs
  | .isClosed tx => tx ∈ a.txs
  | _ => a.rx = true

end Machine

/-! ### The unbounded channel -/

namespace Unbounded

/-- One call. -/
def Machine.exec (a : Machine Bool T) : Action T W → Answer T × Machine Bool T
  | .call c => a.call c
  | .send _ value =>
    if a.gate then (.sent (.ready (.error .rxClosed)), a)
    else (.sent (.ready (.ok ())), a.push value)

/-- Only live handles are used. -/
def Machine.Allowed (a : Machine Bool T) : Action T W → Prop
  | .call c => a.Allowed c
  | .send tx _ => tx ∈ a.txs

/-- One step. -/
def Machine.Step (a : Machine Bool T) (e : Action T W × Answer T) (b : Machine Bool T) : Prop :=
  Machine.Allowed a e.1 ∧ Machine.exec a e.1 = (e.2, b)

end Unbounded

/-! ### The bounded channel -/

instance : Gate Turnstile where
  give g n := Turnstile.letIn^[n] g
  shut := Turnstile.shut
  isShut := Turnstile.isShut
  isShut_give g n := by
    induction n with
    | zero => rfl
    | succ n ih => rw [Function.iterate_succ_apply', Turnstile.isShut_letIn, ih]
  isShut_shut _ := rfl

namespace Bounded

/-- The bounded channel with its send futures. -/
structure Machine (T : Type) where
  base : Mpsc.Machine Turnstile T
  sends : Store Addr (SendFuture T)

namespace Machine

/-- A new channel with `buffer` slots. -/
def new (T : Type) (buffer : ℕ) : Machine T :=
  { base := .new T (.new buffer)
    sends := Store.empty }

/-- The gate after a call on it. -/
def setGate (a : Machine T) (gate : Turnstile) : Machine T :=
  { a with base := { a.base with gate } }

/-- Set the stage of the future at `i`, which borrows `tx`. -/
def setStage (a : Machine T) (i : Addr) (tx : ℕ) (stage : Stage T) : Machine T :=
  { a with sends := a.sends.insert i { tx, stage } }

/-- The send at `i` asks for a slot, and uses it if it gets one. -/
def resume (a : Machine T) (i : Addr) (tx : ℕ) (value : T) (first : Bool) :
    Poll (Except SendError Unit) × Machine T :=
  match a.base.gate.ask i first with
  | (.pending, gate) => (.pending, (a.setGate gate).setStage i tx (.suspended value))
  | (.ready (.error _), gate) =>
    (.ready (.error .rxClosed), (a.setGate gate).setStage i tx .returned)
  | (.ready (.ok ()), gate) =>
    (.ready (.ok ()),
      { a with base := (a.setGate gate).base.push value }.setStage i tx .returned)

/-- The poll of a send. -/
def poll (a : Machine T) (i : Addr) : Poll (Except SendError Unit) × Machine T :=
  match a.sends.get? i with
  | some { tx, stage := .unresumed value } => a.resume i tx value true
  | some { tx, stage := .suspended value } => a.resume i tx value false
  | _ => (.pending, a)

/-- The drop of a send. -/
def drop (a : Machine T) (i : Addr) : Machine T :=
  match a.sends.get? i with
  | some { stage := .suspended _, .. } =>
    { a.setGate (a.base.gate.leave i) with sends := a.sends.erase i }
  | _ => { a with sends := a.sends.erase i }

/-- One call. -/
def exec (a : Machine T) : Action T W → Answer T × Machine T
  | .call c => ((a.base.call c).1, { a with base := (a.base.call c).2 })
  | .send i tx value => (.unit, a.setStage i tx (.unresumed value))
  | .poll i _ => (.sent (a.poll i).1, (a.poll i).2)
  | .drop i => (.unit, a.drop i)

/-- No future borrows `tx`. -/
def Unborrowed (a : Machine T) (tx : ℕ) : Prop := ∀ i f, a.sends.get? i = some f → f.tx ≠ tx

/-- Only live handles and futures are used, a future is created in free memory, a `Tx` that is
borrowed is not dropped, and no future is polled after it returned. -/
def Allowed (a : Machine T) : Action T W → Prop
  | .call (.dropTx tx) => tx ∈ a.base.txs ∧ a.Unborrowed tx
  | .call c => a.base.Allowed c
  | .send i tx _ => tx ∈ a.base.txs ∧ a.sends.get? i = none
  | .poll i _ => ((a.sends.get? i).any fun f => f.stage.value.isSome) = true
  | .drop i => (a.sends.get? i).isSome = true

/-- One step. -/
def Step (a : Machine T) (e : Action T W × Answer T) (b : Machine T) : Prop :=
  a.Allowed e.1 ∧ a.exec e.1 = (e.2, b)

end Machine

end Bounded

end LocalSync.Mpsc
