/-
  Clients that go on after a panic.

  A call on the semaphore can panic on the limits of the permits.  Unwinding
  drops what the call had on its stack: a guard or a future that was being
  dropped is gone, and the semaphore stays as the panic left it.  `CaughtStep`
  are the steps of clients that catch such a panic and use the semaphore again.
-/
import LocalSync.Semaphore.System

namespace LocalSync.Semaphore

open Lib

variable {P : PointerWidth} {W : Type} [Waker W]

/-- The message of the assertion in `add_permits`. -/
def limitMessage (P : PointerWidth) : String :=
  s!"cannot add more than MAX_PERMITS permits ({Inner.maxPermits P})"

/-- The message of the assertion in `try_acquire`. -/
def requestMessage (P : PointerWidth) : String :=
  s!"a semaphore may not have more than MAX_PERMITS permits ({Inner.maxPermits P})"

namespace System

/-- The system after the call `c` has unwound, with the semaphore in the state `x`. -/
def unwound (s : System P W) (c : Action W) (x : Inner P W) : System P W :=
  match c with
  | .dropAcquire i =>
    { s with sem := { s.sem with inner := x.free i }, results := s.results.erase i }
  | .dropPermit p | .forget p =>
    { s with sem := { s.sem with inner := x }, permits := s.permits.erase p }
  | _ => { s with sem := { s.sem with inner := x } }

/-- One step of clients that catch panics; the answer of a call that panicked is `none`. -/
inductive CaughtStep (s : System P W) : Action W × Option Output → System P W → Prop
  | returns {c : Action W} {o : Output} {t : System P W} :
    s.Step (c, o) t → CaughtStep s (c, some o) t
  | panics {c : Action W} {u : Unwind (Inner P W)} {message : String} :
    s.Allowed c → s.exec c = .error u → u.fault = .panic message →
      CaughtStep s (c, none) (s.unwound c u.state)

/-- Make a call, if it is allowed, and catch its panic. -/
def caughtCall (s : System P W) (c : Action W) : Option (Option Output × System P W) :=
  if s.Allowed c then
    match s.exec c with
    | .ok (o, t) => some (some o, t)
    | .error ⟨.panic _, x⟩ => some (none, s.unwound c x)
    | .error _ => none
  else none

theorem caughtStep_of_caughtCall (s : System P W) (c : Action W) (o : Option Output)
    (t : System P W) (h : s.caughtCall c = some (o, t)) : s.CaughtStep (c, o) t := by
  unfold caughtCall at h
  split_ifs at h with hc
  split at h
  · next o' t' hres =>
    obtain ⟨rfl, rfl⟩ := Prod.mk.inj (Option.some.inj h)
    exact .returns ⟨hc, hres⟩
  · next message x hres =>
    obtain ⟨rfl, rfl⟩ := Prod.mk.inj (Option.some.inj h)
    exact .panics hc hres rfl
  · cases h

end System

end LocalSync.Semaphore
