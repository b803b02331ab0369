/-
  What a semaphore is for those who take one permit at a time.

  The bounded channel and the once cell are such users.  A turnstile has no
  requests and no wakers: permits are free, or granted to callers that have not
  noticed yet, and the callers that found none stand in line.
-/
import LocalSync.Semaphore.Inner

namespace LocalSync.Semaphore

/-- The permits of a semaphore, and the callers that wait for one. -/
structure Turnstile where
  /-- The permits that nobody has. -/
  free : ℕ
  /-- The callers that wait for a permit, the longest wait first. -/
  line : List Addr
  /-- The callers to which a permit has been granted, and which have not been polled since. -/
  granted : Finset Addr
  isShut : Bool

namespace Turnstile

/-- A turnstile with `permits` permits. -/
def new (permits : ℕ) : Turnstile := { free := permits, line := [], granted := ∅, isShut := false }

/-- A permit comes in: it goes to whoever has waited longest. -/
def letIn (g : Turnstile) : Turnstile :=
  match g.line with
  | [] => { g with free := g.free + 1 }
  | i :: line => { g with line, granted := insert i g.granted }

/-- Nobody waits at a turnstile that is shut. -/
def shut (g : Turnstile) : Turnstile := { g with line := [], isShut := true }

/-- The caller at `i` goes away, and leaves its permit behind, if it has one. -/
def leave (g : Turnstile) (i : Addr) : Turnstile :=
  if i ∈ g.granted then { g with granted := g.granted.erase i }.letIn
  else { g with line := g.line.erase i }

/-- The caller at `i` asks for a permit, for the first time or again. -/
def ask (g : Turnstile) (i : Addr) (first : Bool) :
    Poll (Except AcquireError Unit) × Turnstile :=
  if g.isShut then (.ready (.error .closed), g.leave i)
  else if first then
    if 0 < g.free then (.ready (.ok ()), { g with free := g.free - 1 })
    else (.pending, { g with line := g.line ++ [i] })
  else if i ∈ g.granted then (.ready (.ok ()), { g with granted := g.granted.erase i })
  else (.pending, g)

theorem isShut_letIn (g : Turnstile) : g.letIn.isShut = g.isShut := by
  unfold letIn
  split <;> rfl

/-- Who neither waits nor has a permit leaves no trace. -/
theorem leave_eq_self {g : Turnstile} {i : Addr} (hgranted : i ∉ g.granted) (hline : i ∉ g.line) :
    g.leave i = g := by
  rw [leave, if_neg hgranted, List.erase_of_not_mem hline]

/-- Asking shuts nothing. -/
theorem isShut_ask (g : Turnstile) (i : Addr) (first : Bool) :
    (g.ask i first).2.isShut = g.isShut := by
  unfold ask leave
  split_ifs <;> first | rfl | exact isShut_letIn _

end Turnstile

end LocalSync.Semaphore
