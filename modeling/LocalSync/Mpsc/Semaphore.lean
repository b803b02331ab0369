/-
  `trait Semaphore` of `mpsc/semaphore.rs`, what a channel asks of its
  semaphore, with its two implementations: the low-level semaphore, whose
  permits are the free slots of a bounded channel, and `Unlimited`.

  A bounded channel runs on the semaphore with its history (`Tracked`), so that
  what the sending futures have seen is part of the state.
-/
import LocalSync.Semaphore.History

namespace LocalSync.Mpsc

open LocalSync.Semaphore (Inner Tracked)

/-- `trait Semaphore`. -/
class Semaphore (S : Type) where
  addPermits : S → ℕ → Except Fault S
  close : S → Except Fault S
  isClosed : S → Bool

/-- `impl Semaphore for Inner`. -/
instance {P : PointerWidth} {W : Type} : Semaphore (Tracked P W) where
  addPermits x n := (x.release n).fault
  close x := x.close.fault
  isClosed x := x.inner.isClosed

/-- `Unlimited`. -/
structure Unlimited where
  closed : Bool

/-- `Unlimited::new`. -/
def Unlimited.new : Unlimited := { closed := false }

/-- `impl Semaphore for Unlimited`. -/
instance : Semaphore Unlimited where
  addPermits x _ := .ok x
  close x := .ok { x with closed := true }
  isClosed x := x.closed

end LocalSync.Mpsc
