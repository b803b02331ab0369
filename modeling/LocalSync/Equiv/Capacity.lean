/-
  The capacity of the bounded channel, and why it does not deadlock.

  A slot is free, assigned to a send that has not noticed yet, or taken by a
  value in the queue; the three counts always add up to the capacity
  (`Accounting`).  When the receiver waits the queue is empty, so some slot is
  free or assigned; a free slot means that nobody waits for one, and whoever has
  been assigned one has been woken (`no_deadlock`).
-/
import Mathlib.Algebra.BigOperators.Group.Finset.Piecewise
import LocalSync.Equiv.Bounded

namespace LocalSync.Mpsc.Bounded.Channel

open Lib
open LocalSync.Semaphore (Inner Fair Request Slots wakesOf)

variable {P : PointerWidth} {T W : Type} [Waker W]
variable {b : ℕ} {s : Channel P T W} {xs : List T} {i : Addr}

/-- The assigned sends are the requests that need nothing any more. -/
theorem mem_assigned {a : Fair W} {n : ℕ}
    (h : Slots b s.suspended a s.handles.chan.semaphore n) :
    i ∈ s.assigned ↔ i ∈ a.requests.dom ∧ a.need i = 0 := by
  rw [assigned, Finset.mem_filter, Bool.and_eq_true]
  constructor
  · rintro ⟨-, hi, hheld⟩
    obtain ⟨r, hr, -⟩ := h.exists_request hi
    exact ⟨Store.mem_dom_of_get? hr, (h.served_iff hi).mp hheld⟩
  · rintro ⟨hdom, hneed⟩
    obtain ⟨r, hr⟩ := Store.exists_get?_of_mem hdom
    have hi := (h.suspended_of_get? hr).1
    refine ⟨?_, hi, (h.served_iff hi).mpr hneed⟩
    by_contra hn
    simp [suspended, Store.not_mem_dom_iff.mp hn] at hi

/-- As many sends are assigned as permits are held by requests. -/
theorem card_assigned {a : Fair W} {n : ℕ}
    (h : Slots b s.suspended a s.handles.chan.semaphore n) :
    s.assigned.card = a.requests.sum Request.held := by
  have hset : s.assigned = a.requests.dom.filter fun i => a.need i = 0 := by
    ext i
    rw [mem_assigned h, Finset.mem_filter]
  rw [hset, Finset.card_filter, Store.sum]
  refine Finset.sum_congr rfl fun i hi => ?_
  obtain ⟨r, hr⟩ := Store.exists_get?_of_mem hi
  rw [hr, Option.elim_some, h.held_eq (h.suspended_of_get? hr).1 hr, Fair.need_of_get? hr]

/-- Who is not assigned a slot on an open channel waits for one. -/
theorem mem_waiting {a : Fair W} {n : ℕ} (h : Slots b s.suspended a s.handles.chan.semaphore n)
    (hopen : s.handles.chan.isClosed = false) (hi : s.suspended i = true)
    (hn : i ∉ s.assigned) : i ∈ a.waiting := by
  obtain ⟨r, hr, -⟩ := h.exists_request hi
  exact h.mem_waiting (h.isClosed.symm.trans hopen) hi fun hneed =>
    hn ((mem_assigned h).mpr ⟨Store.mem_dom_of_get? hr, hneed⟩)

/-- **The accounting of the capacity** `b`, and what follows from it. -/
structure Accounting (b : ℕ) (s : Channel P T W) : Prop where
  /-- Every slot is free, taken by a value in the queue, or assigned to a send. -/
  balance : s.available + s.handles.chan.queue.len + s.assigned.card = b
  /-- The queue never holds more than the capacity. -/
  queue_le : s.handles.chan.queue.len ≤ b
  /-- Cancelling a send moves its slot, if it has one, and nothing else. -/
  cancel : ∀ i o t, s.Step (.drop i, o) t →
    t.available + t.assigned.card = s.available + s.assigned.card ∧
      t.handles.chan.queue = s.handles.chan.queue
  /-- Nobody waits for a slot on an open channel while one is free. -/
  no_idle : s.handles.chan.isClosed = false → 0 < s.available → ∀ i, s.suspended i = true →
    i ∈ s.assigned
  /-- No call fails an assertion: not the one on `MAX_PERMITS`, and no other. -/
  no_fault : ∀ c, s.Allowed c → ∃ o t, s.Step (c, o) t
  /-- A send that has just acquired its slot finds the channel open. -/
  acquired_open : ∀ i first cx c, s.unfinished i = true → s.suspended i = !first →
    acquireSlot s.handles.chan i first cx = .ok (.ready (.ok ()), c) → c.isClosed = false

theorem Inv.balance (h : Inv b s xs) :
    s.available + s.handles.chan.queue.len + s.assigned.card = b := by
  obtain ⟨a, hslots⟩ := h.handles.semaphore
  have hinside := hslots.inside
  have havailable : s.available = a.available := hslots.models.refines.availablePermits
  rw [card_assigned hslots, havailable, h.handles.len_eq]
  rw [Fair.inside] at hinside
  omega

theorem Inv.accounting (hb : b ≤ Inner.maxPermits P) (h : Inv b s xs) : Accounting b s := by
  have hbalance := h.balance
  constructor
  · exact hbalance
  · omega
  · rintro i o t ⟨hc, hres⟩
    obtain ⟨t', hdrop, hinv, -, -, hqueue⟩ := drop_spec hb h hc
    rw [exec, hdrop] at hres
    obtain ⟨-, rfl⟩ := Prod.mk.inj (Except.ok.inj hres)
    have hbalance' := hinv.balance
    rw [hqueue] at hbalance'
    exact ⟨by omega, hqueue⟩
  · intro hopen hpos i hi
    obtain ⟨a, hslots⟩ := h.handles.semaphore
    by_contra hn
    have hmem := mem_waiting hslots hopen hi hn
    have hzero := hslots.models.sound.exhausted (List.ne_nil_of_mem hmem)
    have havailable : s.available = a.available := hslots.models.refines.availablePermits
    omega
  · intro c hc
    obtain ⟨o, t, ys, hres, -⟩ := exec_spec hb h hc
    exact ⟨o, t, hc, hres⟩
  · intro i first cx c hu hi hacq
    obtain ⟨a, hslots⟩ := h.handles.semaphore
    obtain ⟨r, y, hacq', -, hr⟩ := acquireSlot_spec hslots hb hi cx
    obtain ⟨rfl, rfl⟩ := Prod.mk.inj (Except.ok.inj (hacq'.symm.trans hacq))
    refine Bool.eq_false_iff.mpr fun hclosed => ?_
    have := hr.1.mp hclosed
    cases this

/-- **The capacity is accounted for**, in every state of every run. -/
theorem capacity_balance (hb : b ≤ Inner.maxPermits P) {es : List (Action T W × Answer T)}
    (hrun : Run Step (Channel.new P T W b) es s) : Accounting b s := by
  obtain ⟨xs, h⟩ := run_inv hb hrun
  exact h.accounting hb

/-- A run of a channel with one slot: a second send waits, is assigned the slot, and is
cancelled. -/
theorem capacity_balance_cancel : ∃ (es : List (Action ℕ ℕ × Answer ℕ)) (s : Channel .w64 ℕ ℕ),
    Run Step (Channel.new .w64 ℕ ℕ 1) es s ∧ s.available = 1 ∧ Accounting 1 s := by
  have hcheck : (replay (attempt Allowed exec) (Channel.new .w64 ℕ ℕ 1) [.send 5 0 10, .poll 5 1,
      .send 7 0 20, .poll 7 2, .call .tryRecv, .drop 7]).map (fun r => r.2.available) =
        some 1 := by
    decide +kernel
  obtain ⟨⟨es, s⟩, hres, hs⟩ := Option.map_eq_some_iff.mp hcheck
  have hrun : Run Step _ es s := run_of_replay (fun _ _ _ _ => of_attempt) hres
  exact ⟨es, s, hrun, hs, capacity_balance (by decide) hrun⟩

/-! ### Deadlocks -/

/-- The waker of the last poll of the send at `i` has been woken since that poll. -/
def awakened (s : Channel P T W) (i : Addr) : Prop :=
  ∃ w m, (s.handles.chan.semaphore.history.track i).pending = some (w, m) ∧
    ∃ w' ∈ (wakesOf i s.handles.chan.semaphore.inner.woken).drop m, Waker.task w' = Waker.task w

/-- The receiver waits: its last poll returned `Pending`, and no waker of that task has been woken
since. -/
def rxBlocked (s : Channel P T W) : Prop :=
  ∃ w m, s.handles.polled = some (w, m) ∧
    ∀ w' ∈ s.handles.chan.woken.drop m, Waker.task w' ≠ Waker.task w

/-- When the receiver waits, the queue is empty. -/
theorem Inv.eq_nil_of_rxBlocked (h : Inv b s xs) (hrx : s.rxBlocked) : xs = [] := by
  obtain ⟨w, m, hp, hquiet⟩ := hrx
  cases h.handles.flow.polled w m hp with
  | registered w' hw' =>
    refine (h.handles.flow.waker ?_).1
    rw [hw']
    rfl
  | woken w' _ hdrop htask =>
    refine absurd htask (hquiet w' ?_)
    rw [hdrop]
    exact List.mem_singleton_self w'

/-- **The receiver and the senders do not wait for each other**: when both sides are blocked, some
blocked send has been woken, because it has a slot or because the channel is closed. -/
theorem no_deadlock (hpos : 1 ≤ b) (hb : b ≤ Inner.maxPermits P)
    {es : List (Action T W × Answer T)} (hrun : Run Step (Channel.new P T W b) es s)
    (hrx : s.rxBlocked) (hi : s.suspended i = true) :
    ∃ j, s.suspended j = true ∧ (j ∈ s.assigned ∨ s.handles.chan.isClosed = true) ∧
      s.awakened j := by
  obtain ⟨xs, h⟩ := run_inv hb hrun
  obtain ⟨a, hslots⟩ := h.handles.semaphore
  by_cases hclosed : s.handles.chan.isClosed = true
  · -- nobody waits on a closed semaphore
    refine ⟨i, hi, Or.inr hclosed, hslots.woken hi ?_⟩
    rw [hslots.models.sound.waiting_of_closed (hslots.isClosed.symm.trans hclosed)]
    exact List.not_mem_nil
  · have hopen : s.handles.chan.isClosed = false := Bool.eq_false_iff.mpr hclosed
    have hbalance := h.balance
    rw [h.handles.len_eq, h.eq_nil_of_rxBlocked hrx, List.length_nil] at hbalance
    -- no slot is taken, and a free one would be assigned
    obtain ⟨j, hj⟩ : s.assigned.Nonempty := by
      by_contra hnone
      rw [Finset.not_nonempty_iff_eq_empty] at hnone
      rw [hnone, Finset.card_empty] at hbalance
      have hmem := (h.accounting hb).no_idle hopen (by omega) i hi
      rw [hnone] at hmem
      exact Finset.notMem_empty i hmem
    obtain ⟨hdom, hneed⟩ := (mem_assigned hslots).mp hj
    obtain ⟨r, hr⟩ := Store.exists_get?_of_mem hdom
    have hsusp := (hslots.suspended_of_get? hr).1
    exact ⟨j, hsusp, Or.inl hj, hslots.woken hsusp (hslots.not_mem_waiting hsusp hneed)⟩

/-- A run in which both sides are blocked: the receiver has taken the value of the first send and
waits, and the second send has not noticed its slot yet. -/
theorem no_deadlock_assigned : ∃ (es : List (Action ℕ ℕ × Answer ℕ)) (s : Channel .w64 ℕ ℕ),
    Run Step (Channel.new .w64 ℕ ℕ 1) es s ∧
      ∃ j, s.suspended j = true ∧ (j ∈ s.assigned ∨ s.handles.chan.isClosed = true) ∧
        s.awakened j := by
  have hcheck : (replay (attempt Allowed exec) (Channel.new .w64 ℕ ℕ 1) [.send 5 0 10, .poll 5 1,
      .send 7 0 20, .poll 7 2, .call .tryRecv, .call (.recv 3)]).map
      (fun r => (r.2.suspended 7, r.2.handles.polled, r.2.handles.chan.woken)) =
        some (true, some (3, 0), []) := by
    decide +kernel
  obtain ⟨⟨es, s⟩, hres, hs⟩ := Option.map_eq_some_iff.mp hcheck
  obtain ⟨hsusp, hs⟩ := Prod.mk.inj hs
  obtain ⟨hpolled, hwoken⟩ := Prod.mk.inj hs
  have hrun : Run Step _ es s := run_of_replay (fun _ _ _ _ => of_attempt) hres
  refine ⟨es, s, hrun, no_deadlock (by decide) (by decide) hrun ⟨3, 0, hpolled, ?_⟩ hsusp⟩
  rw [show s.handles.chan.woken = [] from hwoken]
  exact fun w' hw' => absurd hw' List.not_mem_nil

end LocalSync.Mpsc.Bounded.Channel
