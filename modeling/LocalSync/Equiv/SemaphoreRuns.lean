/-
  What holds in every run of the public `Semaphore`, on 64-bit targets.

  * `permits_conserved`: no permit is lost or duplicated.
  * `fair`: permits are given out in the order they were requested.
  * `no_dangling_waiter`: the wait list holds exactly the futures that wait.
  * `no_lost_wakeUp`: who is served is woken, once.

  Each result is a description of one state (`Fairness`, `NoDangling`,
  `NoLostWakeUp`) that follows from the invariant of the system; the runs enter
  through `bounded_inv` only.
-/
import LocalSync.Equiv.SemaphoreSystem

namespace LocalSync.Semaphore

open Lib LinkedList

namespace Inner

variable {P : PointerWidth} {W : Type}

/-- `q` is the wait list, oldest waiter first. -/
def WaitList (s : Inner P W) (q : List Addr) : Prop :=
  s.waiters.queue.Represents s.acquires q.reverse

/-- There is only one wait list. -/
theorem WaitList.unique {s : Inner P W} {q q' : List Addr} (h : s.WaitList q)
    (h' : s.WaitList q') : q = q' :=
  List.reverse_injective (Represents.unique h h')

end Inner

namespace System

variable {P : PointerWidth} {W : Type} [Waker W]

/-! ### Runs -/

theorem toNat_le_maxPermits (n : UInt32) : n.toNat ≤ Inner.maxPermits .w64 := by
  have hmax : 2 ^ 32 ≤ Inner.maxPermits .w64 := by decide
  have := n.toNat_lt
  omega

theorem step_inv (hP : ∀ n : UInt32, n.toNat ≤ Inner.maxPermits P) {s t : System P W}
    {a : Fair W} {e : Action W × Output} (h : Inv s a) (hstep : s.Step e t)
    (hmax : s.total + e.1.amount ≤ Inner.maxPermits P) :
    ∃ b, Inv t b ∧ Moves s t e.1.amount := by
  obtain ⟨hc, hres⟩ := hstep
  obtain ⟨o, t', b, hres', ht, hmoves⟩ := exec_spec hP h e.1 hc hmax
  obtain ⟨-, rfl⟩ := Prod.mk.inj (Except.ok.inj (hres.symm.trans hres'))
  exact ⟨b, ht, hmoves⟩

/-- **The invariant holds in every run** that stays within the maximum. -/
theorem bounded_inv (hP : ∀ n : UInt32, n.toNat ≤ Inner.maxPermits P) {p : ℕ}
    {es : List (Action W × Output)} {t : System P W} (hp : p ≤ Inner.maxPermits P)
    (hrun : Run BoundedStep (System.new P W p) es t) : ∃ a, Inv t a := by
  refine hrun.invariant (I := fun t => ∃ a, Inv t a) ?_ ⟨_, (new_inv hp).1⟩
  rintro s e t ⟨a, h⟩ ⟨hstep, hmax⟩
  obtain ⟨b, ht, -⟩ := step_inv hP h hstep hmax
  exact ⟨b, ht⟩

/-- No allowed call within the maximum faults, after any run. -/
theorem exec_ok {p : ℕ} {es : List (Action W × Output)} {t : System .w64 W}
    (hp : p ≤ Inner.maxPermits .w64) (hrun : Run BoundedStep (System.new .w64 W p) es t)
    (c : Action W) (hc : t.Allowed c) (hmax : t.total + c.amount ≤ Inner.maxPermits .w64) :
    ∃ o u, t.BoundedStep (c, o) u := by
  obtain ⟨a, h⟩ := bounded_inv toNat_le_maxPermits hp hrun
  obtain ⟨o, u, -, hres, -⟩ := exec_spec toNat_le_maxPermits h c hc hmax
  exact ⟨o, u, ⟨hc, hres⟩, hmax⟩

/-! ### Conservation -/

/-- The counter of the permits that were added. -/
theorem added_exec {s t : System P W} {c : Action W} {o : Output}
    (h : s.exec c = .ok (o, t)) : t.added = s.added + c.amount := by
  cases c with
  | addPermits n =>
    simp only [exec, addPermits, bind_eq_ok, pure_eq_ok, Except.ok.injEq, Prod.mk.injEq] at h
    obtain ⟨u, ⟨sem, -, rfl⟩, -, rfl⟩ := h
    rfl
  | acquireMany i n =>
    simp only [exec, pure_eq_ok, Except.ok.injEq, Prod.mk.injEq] at h
    obtain ⟨-, rfl⟩ := h
    rfl
  | poll i cx =>
    simp only [exec, bind_eq_ok, pure_eq_ok, Except.ok.injEq, Prod.mk.injEq] at h
    obtain ⟨⟨r, u⟩, hres, -, rfl⟩ := h
    unfold poll at hres
    split at hres
    · cases hres
    · obtain ⟨⟨r', sem⟩, -, hres⟩ := bind_eq_ok.mp hres
      rcases r' with (e | u') | _ <;> obtain ⟨-, rfl⟩ := Prod.mk.inj (Except.ok.inj hres) <;> rfl
  | dropAcquire i =>
    simp only [exec, dropAcquire, bind_eq_ok, pure_eq_ok, Except.ok.injEq, Prod.mk.injEq] at h
    obtain ⟨u, ⟨sem, -, rfl⟩, -, rfl⟩ := h
    rfl
  | tryAcquireMany n =>
    simp only [exec, bind_eq_ok, pure_eq_ok, Except.ok.injEq, Prod.mk.injEq] at h
    obtain ⟨⟨r, u⟩, hres, -, rfl⟩ := h
    obtain ⟨⟨r', sem⟩, -, hres⟩ := bind_eq_ok.mp hres
    rcases r' with e | u' <;> obtain ⟨-, rfl⟩ := Prod.mk.inj (Except.ok.inj hres) <;> rfl
  | dropPermit p =>
    simp only [exec, bind_eq_ok, pure_eq_ok, Except.ok.injEq, Prod.mk.injEq] at h
    obtain ⟨u, hres, -, rfl⟩ := h
    unfold dropPermit at hres
    split at hres
    · cases hres
    · obtain ⟨sem, -, hres⟩ := bind_eq_ok.mp hres
      obtain rfl := Except.ok.inj hres
      rfl
  | forget p =>
    simp only [exec, bind_eq_ok, pure_eq_ok, Except.ok.injEq, Prod.mk.injEq] at h
    obtain ⟨u, hres, -, rfl⟩ := h
    unfold forget dropPermit at hres
    split at hres
    · cases hres
    · obtain ⟨sem, -, hres⟩ := bind_eq_ok.mp hres
      obtain rfl := Except.ok.inj hres
      rfl
  | close =>
    simp only [exec, close, bind_eq_ok, pure_eq_ok, Except.ok.injEq, Prod.mk.injEq] at h
    obtain ⟨u, ⟨sem, -, rfl⟩, -, rfl⟩ := h
    rfl

/-- **Permit conservation.** However the clients interleave, the permits in circulation, together
with those that were forgotten, are those the semaphore was created with and those that were
added. -/
theorem permits_conserved {p : ℕ} {es : List (Action W × Output)} {t : System .w64 W}
    (hrun : Run Step (System.new .w64 W p) es t)
    (hmax : p + t.added ≤ Inner.maxPermits .w64) :
    t.total + t.forgotten = p + t.added := by
  have key : (∃ a, Inv t a) ∧ t.total + t.forgotten = p + t.added := by
    induction hrun with
    | nil =>
      obtain ⟨hinv, htotal⟩ := new_inv (W := W) (P := .w64) (p := p) (by omega)
      exact ⟨⟨_, hinv⟩, congrArg (· + 0) htotal⟩
    | @snoc es e t u hrun hstep ih =>
      have hadded : u.added = t.added + e.1.amount := added_exec hstep.2
      obtain ⟨⟨a, h⟩, hbalance⟩ := ih (by omega)
      obtain ⟨b, hb, hmoves⟩ := step_inv toNat_le_maxPermits h hstep (by omega)
      refine ⟨⟨b, hb⟩, ?_⟩
      rw [hmoves.balance, hadded]
      omega
  exact key.2

/-- A run in which a future waits for three permits, is served by `add_permits` and has its permit
forgotten. -/
theorem permits_conserved_forget : ∃ (es : List (Action ℕ × Output)) (t : System .w64 ℕ),
    Run Step (System.new .w64 ℕ 1) es t ∧ t.added = 2 ∧ t.forgotten = 3 ∧
      t.total + t.forgotten = 1 + t.added := by
  have hcheck : (replay System.call (System.new .w64 ℕ 1) [.acquireMany 7 3, .poll 7 5,
      .acquireMany 9 1, .poll 9 6, .addPermits 2, .poll 7 8, .forget 1]).map
      (fun r => (r.2.added, r.2.forgotten)) = some (2, 3) := by decide +kernel
  obtain ⟨⟨es, t⟩, hres, ht⟩ := Option.map_eq_some_iff.mp hcheck
  obtain ⟨hadded, hforgotten⟩ := Prod.mk.inj ht
  have hrun := run_of_replay step_of_call hres
  simp only at hadded hforgotten
  exact ⟨es, t, hrun, hadded, hforgotten, permits_conserved hrun (by rw [hadded]; decide)⟩

/-! ### Fairness -/

/-- **Fairness**, as it shows in one state: what the wait list `q` looks like, and who can take
permits. -/
structure Fairness (s : System P W) (q : List Addr) : Prop where
  /-- `q` is the wait list, oldest waiter first. -/
  list : s.sem.inner.WaitList q
  /-- Somebody waits only when the counter is empty. -/
  exhausted : q ≠ [] → s.sem.inner.availablePermits = 0
  /-- The wait list is in the order of the first polls. -/
  order : q.Pairwise fun i j =>
    (s.sem.history.track i).firstPoll < (s.sem.history.track j).firstPoll
  /-- Everybody in it needs something, and at most what was asked for. -/
  need : ∀ i ∈ q, ∃ f, s.sem.inner.acquires.get? i = some f ∧
    0 < f.node.state ∧ f.node.state ≤ f.numPermits.toNat
  /-- Only the oldest waiter has received permits. -/
  whole : ∀ i ∈ q.tail, ∀ f, s.sem.inner.acquires.get? i = some f →
    f.node.state = f.numPermits.toNat
  /-- While `i` waits, nobody who asked for permits after `i` is served. -/
  first_come : ∀ i ∈ q, ∀ j f, s.sem.inner.acquires.get? j = some f → 0 < f.numPermits.toNat →
    (s.sem.history.track i).firstPoll < (s.sem.history.track j).firstPoll →
    j ∈ q ∧ 0 < f.node.state
  /-- `try_acquire` succeeds only when nobody waits. -/
  no_barging_try : ∀ n p t, 1 ≤ n.toNat → s.Step (.tryAcquireMany n, .tried (.ok p)) t → q = []
  /-- The first poll of a future succeeds only when nobody waits. -/
  no_barging_poll : ∀ i f cx p t, s.sem.inner.acquires.get? i = some f → 1 ≤ f.numPermits.toNat →
    (s.sem.history.track i).firstPoll = 0 →
    s.Step (.poll i cx, .polled (.ready (.ok p))) t → q = []

section State

variable {s : System P W} {a : Fair W}

/-- The request of a live future. -/
theorem Inv.get? (h : Inv s a) {i : Addr} {f : Acquire W}
    (hf : s.sem.inner.acquires.get? i = some f) : a.requests.get? i = some f.request := by
  rw [h.models.get?_eq, hf]
  rfl

/-- The future of a request. -/
theorem Inv.exists_future (h : Inv s a) {i : Addr} {r : Request W}
    (hr : a.requests.get? i = some r) :
    ∃ f, s.sem.inner.acquires.get? i = some f ∧ f.request = r :=
  h.models.refines.get? hr

theorem Inv.fairness (hP : ∀ n : UInt32, n.toNat ≤ Inner.maxPermits P) (h : Inv s a)
    (hopen : s.sem.inner.isClosed = false) : Fairness s a.waiting := by
  have ha := h.models.sound
  have hav := h.models.refines.availablePermits
  have hopen' : a.closed = false := h.models.refines.isClosed ▸ hopen
  constructor
  · exact h.models.refines.queue
  · exact fun hq => hav.trans (ha.exhausted hq)
  · exact h.models.chronicle.order
  · intro i hi
    obtain ⟨r, hr, -, hpos⟩ := ha.exists_of_mem hi
    obtain ⟨f, hf, rfl⟩ := h.exists_future hr
    exact ⟨f, hf, hpos, ha.need_le i _ hr⟩
  · exact fun i hi f hf => ha.whole i hi f.request (h.get? hf)
  · intro i hi j f hf hpos hlt
    have hj := h.models.chronicle.first_come i hi j f.request (h.get? hf) hpos hlt
    obtain ⟨r, hr, -, hneed⟩ := ha.exists_of_mem hj
    obtain rfl := Option.some.inj ((h.get? hf).symm.trans hr)
    exact ⟨hj, hneed⟩
  · rintro n p t hn ⟨-, hres⟩
    by_contra hne
    -- the counter is empty
    have h0 := ha.exhausted hne
    obtain ⟨o, u, hres', -, -, ho⟩ := tryAcquireMany_spec hP h n
    have hlt : a.available < n.toNat := by omega
    rw [Fair.tryAcquire_fst, hopen', if_neg Bool.false_ne_true, if_pos hlt] at ho
    simp only [exec] at hres
    rw [hres', ok_bind, ho] at hres
    cases hres
  · rintro i f cx p t hf hn h0 ⟨hc, hres⟩
    by_contra hne
    have hav0 := ha.exhausted hne
    have hr := h.get? hf
    have hq := (h.models.chronicle.fresh i _ hr h0).1
    obtain ⟨o, u, hres', -, -, ho⟩ := poll_spec h hr hc.2 cx
    have hpoll : (a.poll i cx).1 = .pending := by
      have hlt : ¬ f.request.size.toNat ≤ a.available := by
        have hsize : f.request.size.toNat = f.numPermits.toNat := rfl
        omega
      simp [Fair.poll, hr, hopen', hq, hlt]
    rw [hpoll] at ho
    simp only [exec] at hres
    rw [hres', ok_bind, ho] at hres
    cases hres

end State

/-- **The semaphore is fair**, in every state of every run in which it is open. -/
theorem fair {p : ℕ} {es : List (Action W × Output)} {t : System .w64 W}
    (hp : p ≤ Inner.maxPermits .w64) (hrun : Run BoundedStep (System.new .w64 W p) es t)
    (hopen : t.sem.inner.isClosed = false) : ∃ q, Fairness t q := by
  obtain ⟨a, h⟩ := bounded_inv toNat_le_maxPermits hp hrun
  exact ⟨a.waiting, h.fairness toNat_le_maxPermits hopen⟩

/-- A run in which a small request waits behind a large one. -/
theorem fair_behind : ∃ (es : List (Action ℕ × Output)) (t : System .w64 ℕ),
    Run BoundedStep (System.new .w64 ℕ 1) es t ∧ t.sem.inner.waiters.queue.tail = some 7 ∧
      ∃ q, Fairness t q := by
  have hcheck : (replay System.boundedCall (System.new .w64 ℕ 1) [.acquireMany 7 3, .poll 7 5,
      .acquireMany 9 1, .poll 9 6, .addPermits 1]).map
      (fun r => (r.2.sem.inner.isClosed, r.2.sem.inner.waiters.queue.tail))
      = some (false, some 7) := by decide +kernel
  obtain ⟨⟨es, t⟩, hres, ht⟩ := Option.map_eq_some_iff.mp hcheck
  obtain ⟨hopen, htail⟩ := Prod.mk.inj ht
  have hrun := run_of_replay boundedStep_of_boundedCall hres
  exact ⟨es, t, hrun, htail, fair (by decide) hrun hopen⟩

/-! ### The wait list -/

/-- **The wait list**, as it shows in one state: who is in it, and what a drop finds. -/
structure NoDangling (s : System P W) (q : List Addr) : Prop where
  /-- `q` is the wait list, oldest waiter first. -/
  list : s.sem.inner.WaitList q
  nodup : q.Nodup
  /-- While the semaphore is open, it holds the live futures that queued and need something. -/
  mem_iff : s.sem.inner.isClosed = false → ∀ i, i ∈ q ↔
    ∃ f, s.sem.inner.acquires.get? i = some f ∧ f.queued = true ∧ 0 < f.node.state
  /-- Once the semaphore is closed, it is empty. -/
  closed : s.sem.inner.isClosed = true → q = []
  /-- A future that was dropped is not in it, -/
  live : ∀ i ∈ q, (s.sem.inner.acquires.get? i).isSome = true
  /-- nor is a future that has returned, -/
  returned : ∀ i, (s.sem.inner.acquires.get? i).isSome = true →
    (s.sem.history.track i).finished = true → i ∉ q
  /-- and no pointer leads to a future that is not in it: not the ends of the list, -/
  ends : ∀ i, s.sem.inner.waiters.queue.head = some i ∨ s.sem.inner.waiters.queue.tail = some i →
    i ∈ q
  /-- and not the links of a live future. -/
  links : ∀ i j f, s.sem.inner.acquires.get? j = some f →
    f.node.pointers.next = some i ∨ f.node.pointers.prev = some i → i ∈ q
  /-- The drop of a future removes a node that is in the list, or one that is not linked at
  all. -/
  remove : ∀ i f, s.sem.inner.acquires.get? i = some f → f.queued = true →
    i ∈ q ∨ f.node.pointers = Pointers.new ∧ s.sem.inner.waiters.queue.head ≠ some i ∧
      s.sem.inner.waiters.queue.tail ≠ some i
  /-- The subtraction in the drop does not underflow. -/
  no_underflow : ∀ i f, s.sem.inner.acquires.get? i = some f → f.queued = true →
    f.node.state ≤ f.numPermits.toNat

omit [Waker W] in
/-- The wait list of a state that refines a sound one. -/
theorem noDangling_of_refines {s : System P W} {a : Fair W} (h : Refines s.sem.inner a [])
    (ha : a.Sound) (hfinished : ∀ i r, a.requests.get? i = some r →
      (s.sem.history.track i).finished = true → r.queued = false ∨ a.closed = true) :
    NoDangling s a.waiting := by
  have hc := h.isClosed
  have hrep := h.queue
  have hget : ∀ i f, s.sem.inner.acquires.get? i = some f →
      a.requests.get? i = some f.request := fun i f hf => by
    rw [← h.requests, Store.get?_map, hf]
    rfl
  have hmem : ∀ i, i ∈ a.waiting.reverse → i ∈ a.waiting := fun i => List.mem_reverse.mp
  have hhead : ∀ i, s.sem.inner.waiters.queue.head = some i → i ∈ a.waiting := fun i hi =>
    hmem i (List.mem_of_head? (hrep.head_eq.symm.trans hi))
  have htail : ∀ i, s.sem.inner.waiters.queue.tail = some i → i ∈ a.waiting := fun i hi =>
    hmem i (List.mem_of_getLast? (hrep.tail_eq.symm.trans hi))
  constructor
  · exact hrep
  · exact ha.nodup
  · intro hopen i
    rw [ha.mem_waiting i, ← hc]
    constructor
    · rintro ⟨-, r, hr, hq, hpos⟩
      obtain ⟨f, hf, rfl⟩ := h.get? hr
      exact ⟨f, hf, hq, hpos⟩
    · rintro ⟨f, hf, hq, hpos⟩
      exact ⟨hopen, f.request, hget i f hf, hq, hpos⟩
  · exact fun hcl => ha.waiting_of_closed (hc ▸ hcl)
  · intro i hi
    obtain ⟨r, hr, -⟩ := ha.exists_of_mem hi
    obtain ⟨f, hf, -⟩ := h.get? hr
    rw [hf]
    rfl
  · intro i hlive hfin
    obtain ⟨f, hf⟩ := Option.isSome_iff_exists.mp hlive
    rcases hfinished i _ (hget i f hf) hfin with hq | hcl
    · exact ha.not_mem_of_not_queued (hget i f hf) hq
    · rw [ha.waiting_of_closed hcl]
      exact List.not_mem_nil
  · rintro i (hi | hi)
    · exact hhead i hi
    · exact htail i hi
  · rintro i j f hf (hi | hi)
    · refine hmem i (hrep.linked.next_mem (a := j) ?_)
      simp [nextOf, hf, Link.pointers, hi]
    · refine hmem i (hrep.linked.prev_mem (a := j) ?_)
      simp [prevOf, hf, Link.pointers, hi]
  · intro i f hf hq
    by_cases hi : i ∈ a.waiting
    · exact Or.inl hi
    · refine Or.inr ⟨?_, fun hh => hi (hhead i hh), fun ht => hi (htail i ht)⟩
      exact hrep.pointers_outside (fun hm => hi (hmem i hm)) hf
  · exact fun i f hf hq => ha.need_le i f.request (hget i f hf)

theorem Inv.noDangling {s : System P W} {a : Fair W} (h : Inv s a) :
    NoDangling s a.waiting :=
  noDangling_of_refines h.models.refines h.models.sound fun i r hr hfin =>
    (h.models.chronicle.finished i r hr hfin).2

/-- **No waiter dangles**, in any state of any run. -/
theorem no_dangling_waiter {p : ℕ} {es : List (Action W × Output)} {t : System .w64 W}
    (hp : p ≤ Inner.maxPermits .w64) (hrun : Run BoundedStep (System.new .w64 W p) es t) :
    ∃ q, NoDangling t q := by
  obtain ⟨a, h⟩ := bounded_inv toNat_le_maxPermits hp hrun
  exact ⟨a.waiting, h.noDangling⟩

/-- A run that leaves a future with the closed error, still flagged and linked nowhere. -/
theorem no_dangling_waiter_closed : ∃ (es : List (Action ℕ × Output)) (t : System .w64 ℕ),
    Run BoundedStep (System.new .w64 ℕ 1) es t ∧ t.sem.inner.isClosed = true ∧
      ∃ q, NoDangling t q := by
  have hcheck : (replay System.boundedCall (System.new .w64 ℕ 1) [.acquireMany 7 3, .poll 7 5,
      .acquireMany 9 1, .poll 9 6, .dropAcquire 9, .close, .poll 7 5]).map
      (fun r => r.2.sem.inner.isClosed) = some true := by decide +kernel
  obtain ⟨⟨es, t⟩, hres, ht⟩ := Option.map_eq_some_iff.mp hcheck
  have hrun := run_of_replay boundedStep_of_boundedCall hres
  exact ⟨es, t, hrun, ht, no_dangling_waiter (by decide) hrun⟩

/-! ### Wake-ups -/

/-- **No wake-up is lost**: where the waker of a poll that returned `Pending` is, for a future at
`i` whose last poll was made with `w`, after `m` wakers had been taken from its node. -/
structure NoLostWakeUp (s : System P W) (q : List Addr) (i : Addr) (w : W) (m : ℕ) : Prop where
  /-- `q` is the wait list, oldest waiter first. -/
  list : s.sem.inner.WaitList q
  /-- In the list, the future has a waker of the polling task, and was not woken since. -/
  registered : i ∈ q →
    (∃ f w', s.sem.inner.acquires.get? i = some f ∧ f.node.waker = some w' ∧
      Waker.task w' = Waker.task w) ∧ (wakesOf i s.sem.inner.woken).length = m
  /-- Outside the list, exactly one waker was taken from its node and woken since that poll, and
  it wakes the polling task. -/
  woken : i ∉ q → ∃ w', (wakesOf i s.sem.inner.woken).drop m = [w'] ∧
    Waker.task w' = Waker.task w
  /-- Outside the list, the next poll returns `Ready`: an error if the semaphore is closed, a
  permit if not. -/
  ready : i ∉ q → ∀ cx, ∃ r t, s.Step (.poll i cx, .polled (.ready r)) t ∧
    if s.sem.inner.isClosed then r = .error .closed else ∃ p, r = .ok p

theorem Inv.noLostWakeUp {s : System P W} {a : Fair W} (h : Inv s a) {i : Addr} {w : W} {m : ℕ}
    (hlive : (s.sem.inner.acquires.get? i).isSome = true)
    (hp : (s.sem.history.track i).pending = some (w, m)) :
    NoLostWakeUp s a.waiting i w m := by
  have hc := h.models.chronicle
  have hwoken : wakesOf i s.sem.inner.woken = a.woken i := by
    rw [← h.models.refines.woken i, List.reverse_nil, List.append_nil]
  obtain ⟨r, hr⟩ := h.exists_request hlive
  constructor
  · exact h.models.refines.queue
  · intro hi
    obtain ⟨⟨w', hw', htask⟩, hlen⟩ := hc.registered i hi w m hp
    obtain ⟨f, hf, rfl⟩ := h.exists_future hr
    rw [Fair.waker_of_get? hr] at hw'
    exact ⟨⟨f, w', hf, hw', htask⟩, hwoken ▸ hlen⟩
  · intro hi
    rw [hwoken]
    exact hc.notified i r hr hi w m hp
  · intro hi cx
    have hclosed := h.models.refines.isClosed
    -- the future has been polled and has not returned
    have hfin : (s.sem.history.track i).finished = false := by
      by_contra hne
      rw [(hc.finished i r hr (Bool.not_eq_false _ ▸ hne)).1] at hp
      cases hp
    have hpolled : 0 < (s.sem.history.track i).firstPoll := by
      refine Nat.pos_of_ne_zero fun h0 => ?_
      rw [(hc.fresh i r hr h0).2.2] at hp
      cases hp
    have hq := (hc.unfinished i r hr hpolled hfin).1
    obtain ⟨o, t, hres, -, -, ho⟩ := poll_spec h hr hfin cx
    have hstep : s.Step (.poll i cx, .polled o) t := by
      refine ⟨⟨hlive, hfin⟩, ?_⟩
      simp only [exec]
      rw [hres]
      rfl
    cases hcl : a.closed with
    | true =>
      have hpoll : (a.poll i cx).1 = .ready (.error .closed) := by simp [Fair.poll, hr, hcl]
      rw [hpoll] at ho
      subst ho
      refine ⟨_, t, hstep, ?_⟩
      rw [hclosed, hcl, if_pos rfl]
    | false =>
      have hneed : r.need = 0 := by
        by_contra hne
        exact hi ((h.models.sound.mem_waiting i).mpr ⟨hcl, r, hr, hq, Nat.pos_of_ne_zero hne⟩)
      have hpoll : (a.poll i cx).1 = .ready (.ok ()) := by simp [Fair.poll, hr, hcl, hq, hneed]
      rw [hpoll] at ho
      subst ho
      refine ⟨_, t, hstep, ?_⟩
      rw [hclosed, hcl, if_neg Bool.false_ne_true]
      exact ⟨_, rfl⟩

/-- **The semaphore loses no wake-up**, in any state of any run. -/
theorem no_lost_wakeUp {p : ℕ} {es : List (Action W × Output)} {t : System .w64 W}
    (hp : p ≤ Inner.maxPermits .w64) (hrun : Run BoundedStep (System.new .w64 W p) es t)
    {i : Addr} (hlive : (t.sem.inner.acquires.get? i).isSome = true) {w : W} {m : ℕ}
    (hpending : (t.sem.history.track i).pending = some (w, m)) :
    ∃ q, NoLostWakeUp t q i w m := by
  obtain ⟨a, h⟩ := bounded_inv toNat_le_maxPermits hp hrun
  exact ⟨a.waiting, h.noLostWakeUp hlive hpending⟩

/-- A run in which a future is served after its second poll: it is out of the list, and its waker
has been woken. -/
theorem no_lost_wakeUp_served : ∃ (es : List (Action ℕ × Output)) (t : System .w64 ℕ),
    Run BoundedStep (System.new .w64 ℕ 1) es t ∧ (∃ f, t.sem.inner.acquires.get? 7 = some f ∧
      f.node.state = 0) ∧ wakesOf 7 t.sem.inner.woken = [8] ∧
        ∃ q, NoLostWakeUp t q 7 8 0 ∧ 7 ∉ q := by
  have hcheck : (replay System.boundedCall (System.new .w64 ℕ 1) [.acquireMany 7 3, .poll 7 5,
      .poll 7 8, .addPermits 2]).map (fun r =>
        ((r.2.sem.inner.acquires.get? 7).map fun f => f.node.state,
          (r.2.sem.history.track 7).pending, wakesOf 7 r.2.sem.inner.woken))
      = some (some 0, some (8, 0), [8]) := by decide +kernel
  obtain ⟨⟨es, t⟩, hres, ht⟩ := Option.map_eq_some_iff.mp hcheck
  obtain ⟨hstate, hrest⟩ := Prod.mk.inj ht
  obtain ⟨hpending, hwoken⟩ := Prod.mk.inj hrest
  obtain ⟨f, hf, hzero⟩ := Option.map_eq_some_iff.mp hstate
  have hrun := run_of_replay boundedStep_of_boundedCall hres
  obtain ⟨q, hq⟩ := no_lost_wakeUp (by decide) hrun (by rw [hf]; rfl) hpending
  refine ⟨es, t, hrun, ⟨f, hf, hzero⟩, hwoken, q, hq, fun hmem => ?_⟩
  -- who is in the list has not been woken since the poll
  have hlen := (hq.registered hmem).2
  rw [hwoken] at hlen
  cases hlen

end System

end LocalSync.Semaphore
