/-
  The borrow flags of the `RefCell`s, for programs whose wakers re-enter them.

  `World σ` is a program in the middle of its calls: the state `σ`, the cells
  that are mutably borrowed at the moment, and the futures that the calls in
  progress hold by `&mut`.  `borrow_mut` of a borrowed cell panics.  A borrow
  that ends in the statement or block that makes it, and calls no waker there,
  only tests the flag (`touch`); the `state` cells of the wait list's nodes are
  borrowed in no other way and by nobody else, and have no flag.
-/
import LocalSync.Basic
import Mathlib.Data.Finset.Basic

namespace LocalSync

/-- The `RefCell`s of a semaphore and of a channel. -/
inductive Cell where
  /-- `Inner::waiters`. -/
  | waiters
  /-- `Inner::permits`. -/
  | permits
  /-- `Chan::queue`. -/
  | queue
  /-- `Chan::rx_waker`. -/
  | rxWaker
  deriving DecidableEq

/-- The panic of `borrow_mut` on a cell that is borrowed. -/
def alreadyBorrowed : Fault := .panic "already borrowed: BorrowMutError"

/-- The panic of `borrow` on a cell that is mutably borrowed. -/
def alreadyMutablyBorrowed : Fault := .panic "already mutably borrowed: BorrowError"

/-- The panics of the borrow flags. -/
def Fault.IsBorrow (e : Fault) : Prop := e = alreadyBorrowed ∨ e = alreadyMutablyBorrowed

theorem not_isBorrow_diverges : ¬ Fault.diverges.IsBorrow := by
  rintro (h | h) <;> cases h

/-- A program in the middle of its calls. -/
structure World (σ : Type) where
  state : σ
  /-- The cells that are mutably borrowed. -/
  borrowed : Finset Cell
  /-- The futures that the calls in progress hold. -/
  busy : Finset Addr

namespace World

variable {σ : Type}

/-- No call is in progress. -/
def of (s : σ) : World σ := { state := s, borrowed := ∅, busy := ∅ }

/-- The cell `c` is borrowed. -/
def lock (w : World σ) (c : Cell) : World σ := { w with borrowed := insert c w.borrowed }

/-- `borrow_mut`, with a guard that is kept. -/
def borrowMut (w : World σ) (c : Cell) : Except Fault (World σ) :=
  if c ∈ w.borrowed then .error alreadyBorrowed else .ok (w.lock c)

/-- The guard of a borrow is dropped. -/
def release (w : World σ) (c : Cell) : World σ := { w with borrowed := w.borrowed.erase c }

/-- `borrow_mut`, with a guard that is dropped before any waker is called. -/
def touch (w : World σ) (c : Cell) : Except Fault Unit :=
  if c ∈ w.borrowed then .error alreadyBorrowed else .ok ()

/-- `borrow`, with a guard that is dropped before any waker is called. -/
def read (w : World σ) (c : Cell) : Except Fault Unit :=
  if c ∈ w.borrowed then .error alreadyMutablyBorrowed else .ok ()

/-- Change the state. -/
def modify (w : World σ) (f : σ → σ) : World σ := { w with state := f w.state }

/-- A call takes the future at `i`. -/
def hold (w : World σ) (i : Addr) : World σ := { w with busy := insert i w.busy }

/-- The call that took the future at `i` returns. -/
def letGo (w : World σ) (i : Addr) : World σ := { w with busy := w.busy.erase i }

section Flags

variable {w : World σ} {c : Cell}

theorem borrowMut_eq (h : c ∉ w.borrowed) : w.borrowMut c = .ok (w.lock c) := if_neg h

theorem borrowMut_of_mem (h : c ∈ w.borrowed) : w.borrowMut c = .error alreadyBorrowed := if_pos h

theorem touch_eq (h : c ∉ w.borrowed) : w.touch c = .ok () := if_neg h

theorem touch_of_mem (h : c ∈ w.borrowed) : w.touch c = .error alreadyBorrowed := if_pos h

theorem read_eq (h : c ∉ w.borrowed) : w.read c = .ok () := if_neg h

theorem mem_lock (w : World σ) (c : Cell) : c ∈ (w.lock c).borrowed := Finset.mem_insert_self _ _

theorem notMem_lock {c' : Cell} (hc : c' ≠ c) (h : c' ∉ w.borrowed) : c' ∉ (w.lock c).borrowed :=
  fun hm => (Finset.mem_insert.mp hm).elim hc h

theorem notMem_of_free (h : w.borrowed = ∅) (c : Cell) : c ∉ w.borrowed :=
  h ▸ Finset.notMem_empty c

theorem notMem_lock_of_free (h : w.borrowed = ∅) {c' : Cell} (hc : c' ≠ c) :
    c' ∉ (w.lock c).borrowed :=
  notMem_lock hc (notMem_of_free h c')

/-- The guard of a cell that was free in `w` is dropped, and the state is `t` by now. -/
theorem eq_release {u : World σ} {t : σ} (h : c ∉ w.borrowed) (ht : u.state = t)
    (hb : u.borrowed = insert c w.borrowed) (hbusy : u.busy = w.busy) :
    { w with state := t } = u.release c := by
  show _ = ({ state := u.state, borrowed := u.borrowed.erase c, busy := u.busy } : World σ)
  rw [ht, hb, hbusy, Finset.erase_insert h]

theorem release_lock (h : c ∉ w.borrowed) : (w.lock c).release c = w :=
  (eq_release (u := w.lock c) h rfl rfl rfl).symm

/-- The call that took a free future returns, and the state is `t` by now. -/
theorem eq_letGo {u : World σ} {t : σ} {i : Addr} (h : i ∉ w.busy) (ht : u.state = t)
    (hb : u.borrowed = w.borrowed) (hbusy : u.busy = insert i w.busy) :
    { w with state := t } = u.letGo i := by
  show _ = ({ state := u.state, borrowed := u.borrowed, busy := u.busy.erase i } : World σ)
  rw [ht, hb, hbusy, Finset.erase_insert h]

theorem letGo_hold {i : Addr} (h : i ∉ w.busy) : (w.hold i).letGo i = w :=
  (eq_letGo (u := w.hold i) h rfl rfl rfl).symm

end Flags

end World

end LocalSync
