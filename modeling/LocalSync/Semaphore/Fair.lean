/-
  `Fair`, what the semaphore is for: a counter of permits with a queue of
  requests, served in the order of their arrival.

  The abstract state has no packed counter, no pointers and no batches.  The
  queue is a list of addresses, oldest first, and permits that come in are
  handed out greedily along it (`handOut`): a request that gets all it still
  needs leaves the queue and is woken, the first one that does not keeps what
  is left, and only what no request needs goes to the counter.

  `Sound` is the invariant of the abstract semaphore.  `inside` counts the
  permits it holds, in the counter and in requests that are partly or fully
  served; every operation moves `inside` by exactly the permits that enter or
  leave with it.
-/
import LocalSync.Semaphore.Inner

namespace LocalSync.Semaphore

open Lib

/-- A request: what the abstract semaphore knows of an `Acquire` future. -/
structure Request (W : Type) where
  /-- The permits it still needs. -/
  need : ℕ
  /-- The waker to call when it is served. -/
  waker : Option W
  /-- The permits it asked for. -/
  size : UInt32
  /-- It has been in the queue. -/
  queued : Bool

/-- The abstract semaphore. -/
structure Fair (W : Type) where
  /-- The permits nobody has asked for. -/
  available : ℕ
  closed : Bool
  /-- The requests that wait, oldest first. -/
  waiting : List Addr
  /-- The live requests. -/
  requests : Store Addr (Request W)
  /-- For each address, the wakers taken from it and woken so far. -/
  woken : Addr → List W

variable {W : Type}

namespace Request

/-- The permits set aside for a request: what it has received and not yet given away. -/
def held (r : Request W) : ℕ := if r.queued then r.size.toNat - r.need else 0

/-- A new request. -/
def new (size : UInt32) : Request W := { need := size.toNat, waker := none, size, queued := false }

/-- Register the waker of the current poll, unless the registered one would do. -/
def register [Waker W] (cx : W) (r : Request W) : Request W :=
  if (r.waker.map fun waker => !Waker.willWake waker cx).getD true then
    { r with waker := some cx }
  else r

@[simp] theorem held_new (size : UInt32) : (new size : Request W).held = 0 := rfl

section Register

variable [Waker W] (cx : W) (r : Request W)

@[simp] theorem need_register : (r.register cx).need = r.need := by
  unfold register; split <;> rfl

@[simp] theorem size_register : (r.register cx).size = r.size := by
  unfold register; split <;> rfl

@[simp] theorem queued_register : (r.register cx).queued = r.queued := by
  unfold register; split <;> rfl

theorem register_with_queued (queued : Bool) :
    ({ r.register cx with queued } : Request W) = ({ r with queued } : Request W).register cx := by
  unfold register; split <;> rfl

@[simp] theorem held_register : (r.register cx).held = r.held := by
  simp [held]

/-- After registration the slot holds a waker of the polling task. -/
theorem waker_register :
    ∃ w, (r.register cx).waker = some w ∧ Waker.task w = Waker.task cx := by
  unfold register
  cases hw : r.waker with
  | none => exact ⟨cx, by simp, rfl⟩
  | some w =>
    by_cases hww : Waker.willWake w cx = true
    · exact ⟨w, by simp [hww, hw], Waker.task_eq w cx hww⟩
    · exact ⟨cx, by simp [hww], rfl⟩

end Register

end Request

namespace Fair

/-! ### The operations -/

/-- An open semaphore with `available` permits. -/
def new (W : Type) (available : ℕ) : Fair W :=
  { available, closed := false, waiting := [], requests := Store.empty, woken := fun _ => [] }

/-- What the request at `i` still needs. -/
def need (a : Fair W) (i : Addr) : ℕ := (a.requests.get? i).elim 0 Request.need

/-- The waker registered by the request at `i`. -/
def waker (a : Fair W) (i : Addr) : Option W := (a.requests.get? i).bind Request.waker

/-- Take the oldest request `i` out of the queue and wake it; it still needs `n` permits. -/
def wakeUp (a : Fair W) (i : Addr) (n : ℕ) : Fair W :=
  { a with
    waiting := a.waiting.tail
    requests := a.requests.modify i fun r => { r with need := n, waker := none }
    woken := Function.update a.woken i (a.woken i ++ (a.waker i).toList) }

/-- Hand `n` permits to the request `i` without serving it. -/
def topUp (a : Fair W) (i : Addr) (n : ℕ) : Fair W :=
  { a with requests := a.requests.modify i fun r => { r with need := r.need - n } }

/-- **The hand-out.** `n` permits go to the queue, oldest request first; what is left over goes to
the counter. -/
def handOut : ℕ → List Addr → Fair W → Fair W
  | n, [], a => { a with available := a.available + n }
  | n, i :: q, a =>
    if a.need i ≤ n then handOut (n - a.need i) q (a.wakeUp i 0) else a.topUp i n

/-- `n` permits come in. -/
def release (a : Fair W) (n : ℕ) : Fair W := handOut n a.waiting a

/-- Take `n` permits out of the counter. -/
def take (a : Fair W) (n : ℕ) : Fair W := { a with available := a.available - n }

/-- Take `n` permits from the counter, if they are there. -/
def tryAcquire (a : Fair W) (n : UInt32) : Except TryAcquireError Unit × Fair W :=
  if a.closed then (.error .closed, a)
  else if a.available < n.toNat then (.error .noPermits, a)
  else (.ok (), a.take n.toNat)

/-- A new request for `n` permits at the free address `i`. -/
def acquire (a : Fair W) (i : Addr) (n : UInt32) : Fair W :=
  { a with requests := a.requests.insert i (Request.new n) }

/-- Join the queue with everything the counter holds. -/
def enqueue [Waker W] (a : Fair W) (i : Addr) (cx : W) : Fair W :=
  { a with
    available := 0
    waiting := a.waiting ++ [i]
    requests := a.requests.modify i fun r =>
      ({ r with need := r.need - a.available, queued := true } : Request W).register cx }

/-- The request `i` polls again while it waits. -/
def reregister [Waker W] (a : Fair W) (i : Addr) (cx : W) : Fair W :=
  { a with requests := a.requests.modify i (Request.register cx) }

/-- The served request `i` takes its permits away. -/
def collect (a : Fair W) (i : Addr) : Fair W :=
  { a with requests := a.requests.modify i ({ · with queued := false }) }

/-- Poll the request at `i` with the waker `cx`. -/
def poll [Waker W] (a : Fair W) (i : Addr) (cx : W) : Poll (Except AcquireError Unit) × Fair W :=
  match a.requests.get? i with
  | none => (.pending, a)
  | some r =>
    if a.closed then (.ready (.error .closed), a)
    else if r.queued then
      if r.need = 0 then (.ready (.ok ()), a.collect i) else (.pending, a.reregister i cx)
    else if r.size.toNat ≤ a.available then (.ready (.ok ()), a.take r.size.toNat)
    else (.pending, a.enqueue i cx)

/-- What a poll of the live request `r` can do. -/
inductive Polled [Waker W] (a : Fair W) (i : Addr) (cx : W) (r : Request W) :
    Poll (Except AcquireError Unit) × Fair W → Prop
  /-- The semaphore is closed. -/
  | closed : a.closed = true → Polled a i cx r (.ready (.error .closed), a)
  /-- The request has been served. -/
  | collected : a.closed = false → r.queued = true → r.need = 0 →
      Polled a i cx r (.ready (.ok ()), a.collect i)
  /-- The request still waits. -/
  | waiting : a.closed = false → r.queued = true → 0 < r.need →
      Polled a i cx r (.pending, a.reregister i cx)
  /-- A first poll finds enough permits. -/
  | taken : a.closed = false → r.queued = false → r.size.toNat ≤ a.available →
      Polled a i cx r (.ready (.ok ()), a.take r.size.toNat)
  /-- A first poll joins the queue. -/
  | enqueued : a.closed = false → r.queued = false → a.available < r.size.toNat →
      Polled a i cx r (.pending, a.enqueue i cx)

theorem polled [Waker W] {a : Fair W} {i : Addr} {r : Request W} (cx : W)
    (hr : a.requests.get? i = some r) : Polled a i cx r (a.poll i cx) := by
  unfold poll
  rw [hr]
  simp only
  split_ifs with hc hq hn hav
  · exact .closed hc
  · exact .collected (Bool.not_eq_true _ ▸ hc) hq hn
  · exact .waiting (Bool.not_eq_true _ ▸ hc) hq (Nat.pos_of_ne_zero hn)
  · exact .taken (Bool.not_eq_true _ ▸ hc) (Bool.not_eq_true _ ▸ hq) hav
  · exact .enqueued (Bool.not_eq_true _ ▸ hc) (Bool.not_eq_true _ ▸ hq) (Nat.lt_of_not_le hav)

/-- Forget the request at `i`, wherever it is. -/
def remove (a : Fair W) (i : Addr) : Fair W :=
  { a with waiting := a.waiting.erase i, requests := a.requests.erase i }

/-- Cancel the request at `i`: what it holds goes back. -/
def cancel (a : Fair W) (i : Addr) : Fair W :=
  (a.remove i).release ((a.requests.get? i).elim 0 Request.held)

/-- Wake the requests `q`, the whole queue, without serving them. -/
def wakeAll : List Addr → Fair W → Fair W
  | [], a => a
  | i :: q, a => wakeAll q (a.wakeUp i (a.need i))

/-- Close the semaphore. -/
def close (a : Fair W) : Fair W := wakeAll a.waiting { a with closed := true }

/-- The permits inside the semaphore: in the counter and in the requests. -/
def inside (a : Fair W) : ℕ := a.available + a.requests.sum Request.held

/-- Who is asking for how much: the part of the requests that no operation changes. -/
def sizes (a : Fair W) : Store Addr UInt32 := a.requests.map Request.size

/-! ### The invariant -/

/-- **The invariant of the abstract semaphore.** -/
structure Sound (a : Fair W) : Prop where
  /-- No request waits twice. -/
  nodup : a.waiting.Nodup
  /-- The queue holds exactly the unserved requests that have queued, while the semaphore is
  open, and nobody once it is closed. -/
  mem_waiting : ∀ i, i ∈ a.waiting ↔
    a.closed = false ∧ ∃ r, a.requests.get? i = some r ∧ r.queued = true ∧ 0 < r.need
  /-- No request needs more than it asked for. -/
  need_le : ∀ i r, a.requests.get? i = some r → r.need ≤ r.size.toNat
  /-- Somebody waits only when the counter is empty. -/
  exhausted : a.waiting ≠ [] → a.available = 0
  /-- Only the oldest request has received permits. -/
  whole : ∀ i ∈ a.waiting.tail, ∀ r, a.requests.get? i = some r → r.need = r.size.toNat
  /-- Whoever waits has registered a waker. -/
  awake : ∀ i ∈ a.waiting, (a.waker i).isSome = true

variable {a : Fair W} {i : Addr} {n : ℕ}

theorem need_of_get? {r : Request W} (h : a.requests.get? i = some r) : a.need i = r.need := by
  simp [need, h]

theorem waker_of_get? {r : Request W} (h : a.requests.get? i = some r) : a.waker i = r.waker := by
  simp [waker, h]

theorem sizes_of_get? {r : Request W} (h : a.requests.get? i = some r) :
    a.sizes.get? i = some r.size := by
  simp [sizes, h]

theorem exists_of_sizes {n : UInt32} (h : a.sizes.get? i = some n) :
    ∃ r, a.requests.get? i = some r ∧ r.size = n := by
  rw [sizes, Store.get?_map] at h
  exact Option.map_eq_some_iff.mp h

theorem inside_eq (a : Fair W) {r : Request W} (h : a.requests.get? i = some r) :
    a.inside = a.available + r.held + (a.requests.erase i).sum Request.held := by
  rw [inside, Store.sum_eq_add_erase _ _ _ _ h, Nat.add_assoc]

namespace Sound

theorem new (W : Type) (n : ℕ) : (Fair.new W n).Sound where
  nodup := List.nodup_nil
  mem_waiting i := by simp [Fair.new]
  need_le i r h := by simp [Fair.new] at h
  exhausted h := absurd rfl h
  whole i h := absurd h (by simp [Fair.new])
  awake i h := absurd h (by simp [Fair.new])

/-- Who waits is a live request that needs something. -/
theorem exists_of_mem (ha : a.Sound) (hi : i ∈ a.waiting) :
    ∃ r, a.requests.get? i = some r ∧ r.queued = true ∧ 0 < r.need :=
  ((ha.mem_waiting i).mp hi).2

theorem open_of_mem (ha : a.Sound) (hi : i ∈ a.waiting) : a.closed = false :=
  ((ha.mem_waiting i).mp hi).1

/-- Who has not queued does not wait. -/
theorem not_mem_of_not_queued {r : Request W} (ha : a.Sound) (hr : a.requests.get? i = some r)
    (hq : r.queued = false) : i ∉ a.waiting := fun h => by
  obtain ⟨r', hr', hq', -⟩ := ha.exists_of_mem h
  obtain rfl := Option.some.inj (hr.symm.trans hr')
  rw [hq] at hq'
  cases hq'

/-- Who needs nothing does not wait. -/
theorem not_mem_of_served {r : Request W} (ha : a.Sound) (hr : a.requests.get? i = some r)
    (hn : r.need = 0) : i ∉ a.waiting := fun h => by
  obtain ⟨r', hr', -, hpos⟩ := ha.exists_of_mem h
  obtain rfl := Option.some.inj (hr.symm.trans hr')
  omega

theorem waiting_of_closed (ha : a.Sound) (hc : a.closed = true) : a.waiting = [] :=
  List.eq_nil_iff_forall_not_mem.mpr fun i hi => by
    rw [ha.open_of_mem hi] at hc
    exact Bool.false_ne_true hc

end Sound

end Fair

end LocalSync.Semaphore
