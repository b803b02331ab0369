/-
  The history of a semaphore: what its clients have seen so far.

  The state of the semaphore does not say when a future was first polled,
  whether it has returned, or which waker its last poll came with.  `History`
  remembers this beside the state; `Tracked` runs the operations of `Inner` and
  keeps the history up to date.  No operation reads the history, so it changes
  nothing about the runs.
-/
import LocalSync.Semaphore.Inner

namespace LocalSync.Semaphore

open Lib

variable {P : PointerWidth} {W : Type}

/-- What has happened to the future at an address since it was created. -/
structure Track (W : Type) where
  /-- When it was polled first, on the clock of polls; 0 until then. -/
  firstPoll : ℕ
  /-- It has returned `Ready`. -/
  finished : Bool
  /-- If its last poll returned `Pending`: the waker of that poll, and how many wakers had been
  taken from its node and woken by then. -/
  pending : Option (W × ℕ)

/-- The history of a semaphore. -/
structure History (W : Type) where
  /-- Counts the polls, from 1 on. -/
  clock : ℕ
  track : Addr → Track W

/-- A future that was never polled. -/
def Track.new : Track W := { firstPoll := 0, finished := false, pending := none }

namespace History

/-- No poll so far. -/
def new (W : Type) : History W := { clock := 1, track := fun _ => Track.new }

/-- A future is created at `i`. -/
def acquire (h : History W) (i : Addr) : History W :=
  { h with track := Function.update h.track i Track.new }

/-- The future at `i` is polled with the waker `cx`; `wakes` wakers have been taken from its node
and woken so far, and the poll is `pending` or not. -/
def poll (h : History W) (i : Addr) (cx : W) (wakes : ℕ) (pending : Bool) : History W :=
  { clock := h.clock + 1
    track := Function.update h.track i
      { firstPoll := if (h.track i).firstPoll = 0 then h.clock else (h.track i).firstPoll
        finished := !pending
        pending := if pending then some (cx, wakes) else none } }

section Track

variable (h : History W) {i j : Addr}

theorem track_acquire_self (i : Addr) : (h.acquire i).track i = Track.new :=
  Function.update_self ..

theorem track_acquire_of_ne (hj : j ≠ i) : (h.acquire i).track j = h.track j :=
  Function.update_of_ne hj _ _

theorem track_poll_self (i : Addr) (cx : W) (wakes : ℕ) (pending : Bool) :
    (h.poll i cx wakes pending).track i =
      { firstPoll := if (h.track i).firstPoll = 0 then h.clock else (h.track i).firstPoll
        finished := !pending
        pending := if pending then some (cx, wakes) else none } :=
  Function.update_self ..

theorem track_poll_of_ne (hj : j ≠ i) (cx : W) (wakes : ℕ) (pending : Bool) :
    (h.poll i cx wakes pending).track j = h.track j :=
  Function.update_of_ne hj _ _

end Track

/-- No two futures were polled first at the same time. -/
structure Distinct (h : History W) : Prop where
  /-- The clock is ahead of all first polls. -/
  before : ∀ i, (h.track i).firstPoll < h.clock
  inj : ∀ i j, 0 < (h.track i).firstPoll → (h.track i).firstPoll = (h.track j).firstPoll → i = j

namespace Distinct

variable {h : History W}

theorem new (W : Type) : (History.new W).Distinct where
  before _ := Nat.one_pos
  inj _ _ hpos := absurd hpos (Nat.lt_irrefl 0)

theorem acquire (hd : h.Distinct) (i : Addr) : (h.acquire i).Distinct := by
  have hself : ((h.acquire i).track i).firstPoll = 0 := by rw [h.track_acquire_self]; rfl
  constructor
  · intro j
    by_cases hj : j = i
    · rw [hj, hself]
      exact Nat.zero_lt_of_lt (hd.before i)
    · rw [h.track_acquire_of_ne hj]
      exact hd.before j
  · intro j k hpos heq
    have hj : j ≠ i := fun hj => by
      rw [hj, hself] at hpos
      exact Nat.lt_irrefl 0 hpos
    have hk : k ≠ i := fun hk => by
      rw [heq, hk, hself] at hpos
      exact Nat.lt_irrefl 0 hpos
    rw [h.track_acquire_of_ne hj] at hpos heq
    rw [h.track_acquire_of_ne hk] at heq
    exact hd.inj j k hpos heq

theorem poll (hd : h.Distinct) (i : Addr) (cx : W) (wakes : ℕ) (pending : Bool) :
    (h.poll i cx wakes pending).Distinct := by
  have hself := congrArg Track.firstPoll (h.track_poll_self i cx wakes pending)
  dsimp only at hself
  have hother : ∀ j, j ≠ i →
      ((h.poll i cx wakes pending).track j).firstPoll = (h.track j).firstPoll := fun j hj =>
    congrArg Track.firstPoll (h.track_poll_of_ne hj cx wakes pending)
  have hbefore := hd.before
  constructor
  · intro j
    show _ < h.clock + 1
    by_cases hj : j = i
    · rw [hj, hself]
      have := hbefore i
      split_ifs <;> omega
    · rw [hother j hj]
      exact Nat.lt_succ_of_lt (hbefore j)
  · intro j k hpos heq
    -- the first poll of the polled future is the one it had, or later than all others
    have hnew : ∀ k, k ≠ i → ((h.poll i cx wakes pending).track i).firstPoll =
        (h.track k).firstPoll → k = i := by
      intro k hk heq
      rw [hself] at heq
      split_ifs at heq with h0
      · exact absurd heq.symm (hbefore k).ne
      · exact (hd.inj i k (Nat.pos_of_ne_zero h0) heq).symm
    by_cases hj : j = i
    · by_cases hk : k = i
      · rw [hj, hk]
      · rw [hj, hother k hk] at heq
        exact absurd (hnew k hk heq) hk
    · rw [hother j hj] at hpos heq
      by_cases hk : k = i
      · rw [hk] at heq
        exact absurd (hnew j hj heq.symm) hj
      · rw [hother k hk] at heq
        exact hd.inj j k hpos heq

end Distinct

end History

/-- The low-level semaphore with its history. -/
structure Tracked (P : PointerWidth) (W : Type) where
  inner : Inner P W
  history : History W

namespace Tracked

/-- `Inner::new`. -/
def new (P : PointerWidth) (W : Type) (permits : ℕ) : Tracked P W :=
  { inner := Inner.new P W permits, history := History.new W }

/-- `Inner::acquire`. -/
def acquire (x : Tracked P W) (i : Addr) (numPermits : UInt32) : Tracked P W :=
  { inner := x.inner.acquire i numPermits, history := x.history.acquire i }

/-- `Acquire::poll`. -/
def poll [Waker W] (x : Tracked P W) (i : Addr) (cx : W) :
    Inner.Outcome P W (Poll (Except AcquireError Unit) × Tracked P W) := do
  let (result, s) ← x.inner.poll i cx
  let wakes := (wakesOf i s.woken).length
  pure (result, { inner := s, history := x.history.poll i cx wakes result.isPending })

/-- `Acquire::drop`. -/
def drop (x : Tracked P W) (i : Addr) : Inner.Outcome P W (Tracked P W) := do
  let s ← x.inner.dropAcquire i
  pure { x with inner := s }

/-- `acquire(1).await`, from its start or from where it is suspended: the future, at address `i`, is
created at the first poll and dropped as soon as it returns. -/
def awaitOne [Waker W] (x : Tracked P W) (i : Addr) (first : Bool) (cx : W) :
    Inner.Outcome P W (Poll (Except AcquireError Unit) × Tracked P W) := do
  match ← (if first then x.acquire i 1 else x).poll i cx with
  | (.pending, x) => pure (.pending, x)
  | (.ready r, x) => do
    let x ← x.drop i
    pure (.ready r, x)

/-- `Inner::try_acquire`. -/
def tryAcquire (x : Tracked P W) (numPermits : UInt32) :
    Inner.Outcome P W (Except TryAcquireError Unit × Tracked P W) := do
  let (result, s) ← x.inner.tryAcquire numPermits
  pure (result, { x with inner := s })

/-- `Inner::release`. -/
def release (x : Tracked P W) (added : ℕ) : Inner.Outcome P W (Tracked P W) := do
  let s ← x.inner.release added
  pure { x with inner := s }

/-- `Inner::close`. -/
def close (x : Tracked P W) : Inner.Outcome P W (Tracked P W) := do
  let s ← x.inner.close
  pure { x with inner := s }

/-! ### Which operations the history sees -/

section History

variable {x y : Tracked P W} {i : Addr}

theorem history_release {n : ℕ} (h : x.release n = .ok y) : y.history = x.history := by
  obtain ⟨s, -, h⟩ := bind_eq_ok.mp h
  obtain rfl := Except.ok.inj h
  rfl

theorem history_close (h : x.close = .ok y) : y.history = x.history := by
  obtain ⟨s, -, h⟩ := bind_eq_ok.mp h
  obtain rfl := Except.ok.inj h
  rfl

theorem history_drop (h : x.drop i = .ok y) : y.history = x.history := by
  obtain ⟨s, -, h⟩ := bind_eq_ok.mp h
  obtain rfl := Except.ok.inj h
  rfl

theorem history_tryAcquire {n : UInt32} {r : Except TryAcquireError Unit}
    (h : x.tryAcquire n = .ok (r, y)) : y.history = x.history := by
  obtain ⟨⟨r', s⟩, -, h⟩ := bind_eq_ok.mp h
  obtain ⟨-, rfl⟩ := Prod.mk.inj (Except.ok.inj h)
  rfl

/-- A failed `try_acquire` changes nothing at all. -/
theorem eq_of_tryAcquire_error {n : UInt32} {e : TryAcquireError}
    (h : x.tryAcquire n = .ok (.error e, y)) : y = x := by
  obtain ⟨⟨r, s⟩, hres, h⟩ := bind_eq_ok.mp h
  obtain ⟨rfl, rfl⟩ := Prod.mk.inj (Except.ok.inj h)
  have hs : s = x.inner := by
    unfold Inner.tryAcquire at hres
    simp only at hres
    split_ifs at hres
    · exact (Prod.mk.inj (Except.ok.inj hres)).2.symm
    · exact (Prod.mk.inj (Except.ok.inj hres)).2.symm
    · cases (Prod.mk.inj (Except.ok.inj hres)).1
  rw [hs]

theorem distinct_awaitOne [Waker W] {first : Bool} {cx : W}
    {r : Poll (Except AcquireError Unit)} (hd : x.history.Distinct)
    (h : x.awaitOne i first cx = .ok (r, y)) : y.history.Distinct := by
  have hd' : (if first then x.acquire i 1 else x).history.Distinct := by
    split_ifs
    · exact hd.acquire i
    · exact hd
  obtain ⟨⟨r', z⟩, hpoll, h⟩ := bind_eq_ok.mp h
  obtain ⟨⟨r'', s⟩, -, hz⟩ := bind_eq_ok.mp hpoll
  obtain ⟨rfl, rfl⟩ := Prod.mk.inj (Except.ok.inj hz)
  have hpolled := hd'.poll i cx (wakesOf i s.woken).length r''.isPending
  cases r'' with
  | pending =>
    obtain ⟨-, rfl⟩ := Prod.mk.inj (Except.ok.inj h)
    exact hpolled
  | ready e =>
    obtain ⟨z, hdrop, hz⟩ := bind_eq_ok.mp h
    obtain ⟨-, rfl⟩ := Prod.mk.inj (Except.ok.inj hz)
    rw [history_drop hdrop]
    exact hpolled

end History

end Tracked

end LocalSync.Semaphore
