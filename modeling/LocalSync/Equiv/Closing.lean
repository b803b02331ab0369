/-
  Closing a semaphore is final.

  `close` returns in every reachable state, however many permits circulate, and
  wakes everybody who waits (`Notifies`).  From then on nobody gets a permit any
  more, whatever the clients do (`ClosedForGood`): the closed bit shares one
  word with the counter, and no operation clears it.
-/
import LocalSync.Equiv.SemaphoreRuns
import LocalSync.Equiv.Wrapping

namespace LocalSync.Semaphore

open Lib

variable {P : PointerWidth} {W : Type} [Waker W]

namespace Inner

variable {s : Inner P W} {i : Addr} {q : Acquire W}

omit [Waker W] in
theorem isClosed_iff : s.isClosed = true ↔ s.permits &&& closed = closed := by
  have hlt := Nat.mod_lt s.permits Nat.two_pos
  rw [isClosed, closed, Nat.and_one_is_mod, bne_iff_ne]
  omega

/-- The poll of a live future finds the closed bit first. -/
theorem poll_closed (hc : s.isClosed = true) (hq : s.acquires.get? i = some q) (cx : W) :
    s.poll i cx = .ok (.ready (.error .closed), s) := by
  have hderef : s.deref i = .ok q := by rw [deref, hq]
  have hbit : s.permits &&& closed > 0 := by
    rw [isClosed_iff.mp hc]
    exact Nat.one_pos
  rw [poll, hderef, ok_bind, pollAcquire, hderef, ok_bind]
  simp only
  rw [if_pos hbit]
  rfl

omit [Waker W] in
/-- So does `try_acquire`, for any number of permits that it does not reject. -/
theorem tryAcquire_closed (hc : s.isClosed = true) {n : UInt32} (hn : n.toNat ≤ maxPermits P) :
    s.tryAcquire n = .ok (.error .closed, s) := by
  rw [tryAcquire, if_pos hn]
  simp only
  rw [if_pos (beq_iff_eq.mpr (isClosed_iff.mp hc))]

end Inner

namespace System

/-- **A semaphore that will not give out permits any more**, as it shows in one state. -/
structure ClosedForGood (s : System P W) : Prop where
  isClosed : s.sem.inner.isClosed = true
  /-- The flag of the wait list agrees with the low bit of the packed counter. -/
  flag : s.sem.inner.waiters.closed = true ∧ s.sem.inner.permits % 2 = 1
  /-- Nobody waits. -/
  waitList : s.sem.inner.WaitList []
  /-- The poll of any live future returns the error at once, -/
  poll : ∀ i, (s.sem.inner.acquires.get? i).isSome = true → ∀ cx, ∃ t,
    s.exec (.poll i cx) = .ok (.polled (.ready (.error .closed)), t) ∧ t.sem.inner = s.sem.inner
  /-- and so does `try_acquire`, unless it rejects the number of permits. -/
  try_acquire : ∀ n, (n.toNat ≤ Inner.maxPermits P →
      s.exec (.tryAcquireMany n) = .ok (.tried (.error .closed), s)) ∧
    ∀ o t, s.exec (.tryAcquireMany n) = .ok (o, t) → o = .tried (.error .closed)

/-- **Everybody who waits is woken** in a step from `s` to `t`: the registered waker is woken once,
and wakes the task of the last poll, which returned `Pending`. -/
def Notifies (s t : System P W) : Prop :=
  ∀ q, s.sem.inner.WaitList q → ∀ i ∈ q, ∃ f w w' m,
    s.sem.inner.acquires.get? i = some f ∧ f.node.waker = some w ∧
    wakesOf i t.sem.inner.woken = wakesOf i s.sem.inner.woken ++ [w] ∧
    (s.sem.history.track i).pending = some (w', m) ∧ Waker.task w = Waker.task w'

variable {s t : System P W} {a : Fair W}

theorem Follows.closedForGood (h : Follows s a) (hclosed : a.closed = true) : ClosedForGood s := by
  have hc : s.sem.inner.isClosed = true := h.sem.refines.isClosed.trans hclosed
  have htry : ∀ n : UInt32, n.toNat ≤ Inner.maxPermits P →
      s.exec (.tryAcquireMany n) = .ok (.tried (.error .closed), s) := by
    intro n hn
    rw [exec, tryAcquireMany, Tracked.tryAcquire, Inner.tryAcquire_closed hc hn]
    rfl
  constructor
  · exact hc
  · refine ⟨h.sem.refines.closed.trans hclosed, ?_⟩
    rw [h.sem.refines.permits, hclosed, Bool.toNat_true]
    omega
  · have hqueue := h.sem.refines.queue
    rw [h.sem.sound.waiting_of_closed hclosed] at hqueue
    exact hqueue
  · intro i hi cx
    obtain ⟨q, hq⟩ := Option.isSome_iff_exists.mp hi
    have hr : a.requests.get? i = some q.request := by rw [h.sem.get?_eq, hq]; rfl
    rw [exec, System.poll, h.result hr]
    simp only
    rw [Tracked.poll, Inner.poll_closed hc hq cx]
    exact ⟨_, rfl, rfl⟩
  · refine fun n => ⟨htry n, fun o t hres => ?_⟩
    by_cases hn : n.toNat ≤ Inner.maxPermits P
    · rw [htry n hn] at hres
      exact (Prod.mk.inj (Except.ok.inj hres)).1.symm
    · obtain ⟨u, hu⟩ := tryAcquire_error s.sem.inner (Nat.lt_of_not_le hn)
      rw [exec, tryAcquireMany, Tracked.tryAcquire, hu] at hres
      cases hres

/-- Once closed, always closed. -/
theorem run_closedForGood (h : Follows s a) (hclosed : a.closed = true)
    {es : List (Action W × Output)} (hrun : Run Step s es t) : ClosedForGood t := by
  obtain ⟨b, hb, hbc⟩ : ∃ b, Follows t b ∧ b.closed = true := by
    refine hrun.invariant (I := fun t => ∃ b, Follows t b ∧ b.closed = true) ?_ ⟨a, h, hclosed⟩
    rintro u e v ⟨b, hb, hbc⟩ hstep
    obtain ⟨c, hc, hstays⟩ := hb.step hstep
    exact ⟨c, hc, hstays hbc⟩
  exact hb.closedForGood hbc

/-- Closing wakes the wait list. -/
theorem Follows.notifies (h : Follows s a) (ht : Follows t a.close) : Notifies s t := by
  intro q hq i hi
  have ha := h.sem.sound
  have hclients := h.sem.clients
  obtain rfl : q = a.waiting := hq.unique h.sem.refines.queue
  obtain ⟨r, hr, hqueued, -⟩ := ha.exists_of_mem hi
  obtain ⟨f, hf, rfl⟩ := h.sem.refines.get? hr
  obtain ⟨w, hw⟩ := Option.isSome_iff_exists.mp (ha.awake i hi)
  -- the future has been polled and has not returned
  have hpolled : 0 < (s.sem.history.track i).firstPoll := by
    refine Nat.pos_of_ne_zero fun h0 => ?_
    rw [(hclients.fresh i _ hr h0).1] at hqueued
    cases hqueued
  have hfin : (s.sem.history.track i).finished = false := by
    by_contra hne
    rcases (hclients.finished i _ hr (Bool.not_eq_false _ ▸ hne)).2 with hq' | hc
    · rw [hq'] at hqueued
      cases hqueued
    · rw [ha.open_of_mem hi] at hc
      cases hc
  obtain ⟨⟨w', m⟩, hp⟩ :=
    Option.isSome_iff_exists.mp (hclients.unfinished i _ hr hpolled hfin).2
  obtain ⟨w'', hw'', htask⟩ := h.sem.registered i hi w' m hp
  obtain rfl := Option.some.inj (hw.symm.trans hw'')
  refine ⟨f, w, w', m, hf, (Fair.waker_of_get? hr).symm.trans hw, ?_, hp, htask⟩
  obtain ⟨-, -, -, hwoken, -⟩ := Fair.wakeAll_spec (a := { a with closed := true }) rfl ha.nodup
  have hlog := ht.sem.refines.woken i
  have hlog' := h.sem.refines.woken i
  rw [List.reverse_nil, List.append_nil] at hlog hlog'
  rw [hlog, hlog', Fair.close, hwoken i, if_pos hi]
  show a.woken i ++ (a.waker i).toList = _
  rw [hw]
  rfl

/-- **Closing is final and complete.** In every reachable state `close` returns and wakes everybody
who waits, and after every continuation the semaphore is closed for good. -/
theorem close_final {p : ℕ} {es : List (Action W × Output)}
    (hrun : Run Step (System.new P W p) es s) :
    ∃ t, s.Step (.close, .unit) t ∧ Notifies s t ∧
      ∀ es' u, Run Step t es' u → ClosedForGood u := by
  obtain ⟨a, h⟩ := run_follows hrun
  obtain ⟨x, hx, hb⟩ := h.sem.close
  have ht : Follows { s with sem := x } a.close := ⟨hb, h.results.trans (Fair.sizes_close a).symm⟩
  refine ⟨{ s with sem := x }, ⟨trivial, ?_⟩, h.notifies ht, fun es' u hrun' => ?_⟩
  · rw [exec, System.close, hx]
    rfl
  · exact run_closedForGood ht (Fair.closed_close a) hrun'

/-- A semaphore that is closed while one future waits and another one has not noticed its
permits. -/
theorem close_final_assigned : ∃ (es : List (Action ℕ × Output)) (s : System .w64 ℕ),
    Run Step (System.new .w64 ℕ 1) es s ∧ s.sem.inner.waiters.queue.tail = some 9 ∧
      ∃ t, s.Step (.close, .unit) t ∧ Notifies s t ∧
        ∀ es' u, Run Step t es' u → ClosedForGood u := by
  have hcheck : (replay System.call (System.new .w64 ℕ 1) [.acquireMany 7 3, .poll 7 5,
      .acquireMany 9 1, .poll 9 6, .addPermits 2]).map
      (fun r => r.2.sem.inner.waiters.queue.tail) = some (some 9) := by decide +kernel
  obtain ⟨⟨es, s⟩, hres, htail⟩ := Option.map_eq_some_iff.mp hcheck
  have hrun := run_of_replay step_of_call hres
  exact ⟨es, s, hrun, htail, close_final hrun⟩

end System

end LocalSync.Semaphore
