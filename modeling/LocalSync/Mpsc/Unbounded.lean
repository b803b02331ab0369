/-
  The unbounded channel of `mpsc/unbounded.rs`: sending is a call like any
  other.
-/
import LocalSync.Lib.Run
import LocalSync.Mpsc.Handles

namespace LocalSync.Mpsc.Unbounded

variable {T W : Type}

/-- The unbounded channel with its handles. -/
abbrev Channel (T W : Type) : Type := Handles Unlimited T W

/-- One call by a client. -/
inductive Action (T W : Type) where
  | call (c : Call W)
  | send (tx : ℕ) (value : T)

/-- `unbounded::channel`. -/
def new (T W : Type) : Channel T W := Handles.new Unlimited.new

/-- Run one call. -/
def exec [Waker W] (s : Channel T W) : Action T W → Except Fault (Answer T × Channel T W)
  | .call c => s.exec c
  | .send _ value => do
    let (r, s) ← s.send value
    pure (.sent (.ready r), s)

/-- The value that a call sends. -/
def sentValue (_ : Channel T W) : Action T W → Option T
  | .call _ => none
  | .send _ value => some value

/-- Only live handles are used. -/
def Allowed (s : Channel T W) : Action T W → Prop
  | .call c => s.Allowed c
  | .send tx _ => tx ∈ s.txs

instance (s : Channel T W) (c : Action T W) : Decidable (Allowed s c) := by
  cases c <;> unfold Allowed <;> infer_instance

/-- One step: a client makes an allowed call. -/
def Step [Waker W] (s : Channel T W) (e : Action T W × Answer T) (t : Channel T W) : Prop :=
  Allowed s e.1 ∧ exec s e.1 = .ok (e.2, t)

end LocalSync.Mpsc.Unbounded
