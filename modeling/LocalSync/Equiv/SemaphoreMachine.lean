/-
  The public `Semaphore` is its machine, on 64-bit targets.

  `Machine.Describes m s`: the fair semaphore of `m` is the abstract semaphore of
  the invariant, the guards are the same, and the futures that have returned are
  those of the history.  Each call leads to states described again
  (`Describes.exec_spec`), and the same calls are allowed
  (`Describes.allowed_iff`), so that both have the same runs
  (`semaphore_follows_machine`).
-/
import LocalSync.Equiv.HandOut
import LocalSync.Equiv.SemaphoreRuns
import LocalSync.Semaphore.Machine

namespace LocalSync.Semaphore

open Lib

variable {P : PointerWidth} {W : Type} [Waker W]

namespace System

/-- What clients may do within the maximum. -/
def Within (s : System P W) (c : Action W) : Prop :=
  s.Allowed c ∧ s.total + c.amount ≤ Inner.maxPermits P

theorem boundedStep_eq : (BoundedStep : System P W → Action W × Output → System P W → Prop) =
    fun s e t => s.Within e.1 ∧ s.exec e.1 = .ok (e.2, t) := by
  funext s e t
  exact propext and_right_comm

/-- A future is alive as long as its `AcquireResult`. -/
theorem Inv.isSome_results {s : System P W} {a : Fair W} (h : Inv s a) (i : Addr) :
    (s.results.get? i).isSome = (s.sem.inner.acquires.get? i).isSome := by
  rw [h.results, Fair.sizes, Store.get?_map, h.models.get?_eq, Option.isSome_map, Option.isSome_map]

end System

namespace Machine

/-- **What the machine shows** of a semaphore and its clients. -/
structure Shows (s : System P W) (m : Machine W) : Prop where
  availablePermits : s.sem.inner.availablePermits = m.fair.available
  isClosed : s.sem.inner.isClosed = m.fair.closed
  /-- The wait list is the queue. -/
  list : s.sem.inner.WaitList m.fair.waiting
  /-- The futures are the requests. -/
  futures : s.sem.inner.acquires.map Acquire.request = m.fair.requests
  /-- Each future has had the same wakers woken. -/
  woken : ∀ i, wakesOf i s.sem.inner.woken = m.fair.woken i
  returned : ∀ i, i ∈ m.returned ↔
    (s.sem.inner.acquires.get? i).isSome = true ∧ (s.sem.history.track i).finished = true
  permits : s.permits = m.permits

/-- **The invariant.** -/
structure Describes (m : Machine W) (s : System P W) : Prop where
  inv : System.Inv s m.fair
  permits : s.permits = m.permits
  returned : ∀ i, i ∈ m.returned ↔
    (s.results.get? i).isSome = true ∧ (s.sem.history.track i).finished = true

namespace Describes

variable {s : System P W} {m : Machine W} {x : Tracked P W} {c : Action W} {i : Addr}

theorem new {p : ℕ} (hp : p ≤ Inner.maxPermits P) :
    Describes (Machine.new W p) (System.new P W p) where
  inv := (System.new_inv hp).1
  permits := rfl
  returned i := by simp [Machine.new, System.new]

theorem shows (h : m.Describes s) : Shows s m where
  availablePermits := h.inv.models.refines.availablePermits
  isClosed := h.inv.models.refines.isClosed
  list := h.inv.models.refines.queue
  futures := h.inv.models.refines.requests
  woken := h.inv.models.refines.wakesOf_eq
  returned i := by
    rw [h.returned i, h.inv.isSome_results]
  permits := h.permits

theorem total_eq (h : m.Describes s) : m.total = s.total := by
  rw [System.total_eq h.inv.models, h.permits]
  rfl

/-- The same futures are alive. -/
theorem isSome_iff (h : m.Describes s) (i : Addr) :
    (m.fair.requests.get? i).isSome = (s.sem.inner.acquires.get? i).isSome := by
  rw [h.inv.models.get?_eq, Option.isSome_map]

/-- The same calls are allowed. -/
theorem allowed_iff (h : m.Describes s) (c : Action W) : s.Allowed c ↔ m.Allowed c := by
  cases c with
  | acquireMany i n =>
    simp only [System.Allowed, Allowed]
    rw [← Option.isNone_iff_eq_none, ← Option.isNone_iff_eq_none, ← Option.not_isSome,
      ← Option.not_isSome, h.isSome_iff]
  | poll i cx =>
    simp only [System.Allowed, Allowed]
    rw [h.isSome_iff, h.returned, h.inv.isSome_results]
    apply and_congr_right
    intro hlive
    simp [hlive]
  | dropAcquire i => simp only [System.Allowed, Allowed, h.isSome_iff]
  | dropPermit p => simp only [System.Allowed, Allowed, h.permits]
  | forget p => simp only [System.Allowed, Allowed, h.permits]
  | _ => exact Iff.rfl

omit [Waker W] in
/-- The size of a request. -/
theorem size_eq {r : Request W} (hr : m.fair.requests.get? i = some r) : m.size i = r.size := by
  rw [size, Fair.sizes_of_get? hr, Option.getD_some]

/-- A poll of the future at `i` that has answered. -/
theorem returned_poll (h : m.Describes s) (hlive : (s.results.get? i).isSome = true) {cx : W}
    {k : ℕ} {pending : Bool} (hhist : x.history = s.sem.history.poll i cx k pending)
    (hu : (s.sem.history.track i).finished = false) (j : Addr) :
    j ∈ (if pending then m.returned else insert i m.returned) ↔
      (s.results.get? j).isSome = true ∧ (x.history.track j).finished = true := by
  rw [hhist]
  by_cases hj : j = i
  · subst hj
    rw [History.track_poll_self]
    cases pending
    · simp [hlive]
    · simp [h.returned, hu]
  · rw [History.track_poll_of_ne _ hj, ← h.returned j]
    split_ifs
    · exact Iff.rfl
    · rw [Finset.mem_insert, or_iff_right hj]

/-- A new future has not returned. -/
theorem returned_acquire (h : m.Describes s) (hi : s.sem.inner.acquires.get? i = none) (n : UInt32)
    (j : Addr) : j ∈ m.returned ↔ ((s.results.insert i n).get? j).isSome = true ∧
      ((s.sem.history.acquire i).track j).finished = true := by
  rw [h.returned j]
  by_cases hj : j = i
  · subst hj
    have hnone := h.inv.isSome_results j
    rw [hi, Option.isSome_none] at hnone
    rw [hnone, History.track_acquire_self]
    simp [Track.new]
  · rw [History.track_acquire_of_ne _ hj, Store.get?_insert_of_ne _ _ hj]

/-- A future is dropped. -/
theorem returned_drop (h : m.Describes s) (i j : Addr) : j ∈ m.returned.erase i ↔
    ((s.results.erase i).get? j).isSome = true ∧ (s.sem.history.track j).finished = true := by
  rw [Finset.mem_erase, h.returned j]
  by_cases hj : j = i
  · subst hj
    simp
  · rw [Store.get?_erase_of_ne _ hj, and_iff_right hj]

/-- **Polling.** -/
theorem poll (h : m.Describes s) (hlive : (s.sem.inner.acquires.get? i).isSome = true)
    (hu : (s.sem.history.track i).finished = false) (cx : W) :
    ∃ t, s.poll i cx = .ok ((m.poll i cx).1, t) ∧ (m.poll i cx).2.Describes t := by
  obtain ⟨r, hr⟩ := h.inv.exists_request hlive
  obtain ⟨o, t, hres, ht, -⟩ := System.poll_spec h.inv hr hu cx
  obtain ⟨x, hx, -, hhist⟩ := h.inv.models.poll hr hu h.inv.inside_le cx
  have hresults := (h.inv.isSome_results i).trans hlive
  have hreturned := h.returned_poll hresults hhist hu
  have hs := System.poll_eq (h.inv.result hr) hx
  rw [hs] at hres
  unfold Machine.poll
  rw [size_eq hr]
  -- the guards have the same addresses
  obtain ⟨a, returned, permits⟩ := m
  obtain rfl : s.permits = permits := h.permits
  generalize a.poll i cx = pa at hs hres ht hreturned
  obtain ⟨(e | u) | _, b⟩ := pa
  all_goals
    obtain ⟨-, rfl⟩ := Prod.mk.inj (Except.ok.inj hres)
    exact ⟨_, hs, ht, rfl, hreturned⟩

/-- Taking permits at once. -/
theorem tryAcquireMany (hP : ∀ n : UInt32, n.toNat ≤ Inner.maxPermits P) (h : m.Describes s)
    (n : UInt32) : ∃ t, s.tryAcquireMany n = .ok ((m.tryAcquireMany n).1, t) ∧
      (m.tryAcquireMany n).2.Describes t := by
  obtain ⟨o, t, hres, ht, -⟩ := System.tryAcquireMany_spec hP h.inv n
  obtain ⟨x, hx, -, hhist⟩ := h.inv.models.tryAcquire (hP n) h.inv.inside_le
  have hs := System.tryAcquireMany_eq hx
  rw [hs] at hres
  have hreturned : ∀ j, j ∈ m.returned ↔
      (s.results.get? j).isSome = true ∧ (x.history.track j).finished = true := by
    rw [hhist]
    exact h.returned
  unfold Machine.tryAcquireMany
  obtain ⟨a, returned, permits⟩ := m
  obtain rfl : s.permits = permits := h.permits
  generalize a.tryAcquire n = pa at hs hres ht
  obtain ⟨e | u, b⟩ := pa
  all_goals
    obtain ⟨-, rfl⟩ := Prod.mk.inj (Except.ok.inj hres)
    exact ⟨_, hs, ht, rfl, hreturned⟩

/-- **One call.** -/
theorem exec_spec (hP : ∀ n : UInt32, n.toNat ≤ Inner.maxPermits P) (h : m.Describes s)
    (c : Action W) (hc : s.Allowed c) (hmax : s.total + c.amount ≤ Inner.maxPermits P) :
    ∃ t, s.exec c = .ok ((m.exec c).1, t) ∧ (m.exec c).2.Describes t := by
  have htotal := System.total_eq h.inv.models
  have hinside := h.inv.inside_le
  cases c with
  | addPermits n =>
    have hfit : m.fair.inside + n ≤ Inner.maxPermits P := by
      have hmax' : s.total + n ≤ Inner.maxPermits P := hmax
      omega
    obtain ⟨t, hres, ht, -⟩ := System.addPermits_spec (n := n) h.inv hmax
    obtain ⟨x, hx, -, hhist⟩ := h.inv.models.release hfit
    obtain rfl := Except.ok.inj (hres.symm.trans (System.addPermits_eq hx))
    refine ⟨_, by rw [System.exec, hres]; rfl, ht, h.permits, ?_⟩
    rw [hhist]
    exact h.returned
  | acquireMany i n =>
    obtain ⟨ht, -⟩ := System.acquireMany_spec hP h.inv hc n
    exact ⟨_, rfl, ht, h.permits, h.returned_acquire hc n⟩
  | poll i cx =>
    obtain ⟨t, hres, ht⟩ := h.poll hc.1 hc.2 cx
    exact ⟨t, by rw [System.exec, hres]; rfl, ht⟩
  | dropAcquire i =>
    obtain ⟨r, hr⟩ := h.inv.exists_request hc
    obtain ⟨t, hres, ht, -⟩ := System.dropAcquire_spec h.inv hr
    obtain ⟨x, hx, -, hhist⟩ := h.inv.models.drop hr hinside
    obtain rfl := Except.ok.inj (hres.symm.trans (System.dropAcquire_eq hx))
    refine ⟨_, by rw [System.exec, hres]; rfl, ht, h.permits, ?_⟩
    rw [hhist]
    exact h.returned_drop i
  | tryAcquireMany n =>
    obtain ⟨t, hres, ht⟩ := h.tryAcquireMany hP n
    exact ⟨t, by rw [System.exec, hres]; rfl, ht⟩
  | dropPermit p =>
    obtain ⟨k, hp⟩ := Option.isSome_iff_exists.mp hc
    have hsum := Store.sum_eq_add_erase _ _ _ UInt32.toNat hp
    have hbound := h.inv.bound
    obtain ⟨t, hres, ht, -⟩ := System.dropPermit_spec h.inv hp
    obtain ⟨x, hx, -, hhist⟩ := h.inv.models.release (n := k.toNat) (by omega)
    obtain rfl := Except.ok.inj (hres.symm.trans (System.dropPermit_eq hp hx))
    have hk : (m.permits.get? p).elim 0 UInt32.toNat = k.toNat := by
      rw [← h.permits, hp]
      rfl
    refine ⟨_, by rw [System.exec, hres]; rfl, ?_, congrArg (fun s => s.erase p) h.permits, ?_⟩
    · rw [Machine.exec, hk]
      exact ht
    · rw [hhist]
      exact h.returned
  | forget p =>
    obtain ⟨k, hp⟩ := Option.isSome_iff_exists.mp hc
    have hempty : (s.permits.modify p fun _ => 0).get? p = some 0 := by
      rw [Store.get?_modify_self, hp]
      rfl
    have hzero : m.fair.release 0 = m.fair := Fair.release_zero h.inv.models.sound
    obtain ⟨t, hres, ht, -⟩ := System.forget_spec h.inv hp
    obtain ⟨x, hx, -, hhist⟩ := h.inv.models.release (n := 0) hinside
    obtain rfl := Except.ok.inj (hres.symm.trans (System.dropPermit_eq hempty hx))
    rw [hzero] at ht
    refine ⟨_, by rw [System.exec, hres]; rfl, ht, ?_, ?_⟩
    · show (s.permits.modify p fun _ => 0).erase p = m.permits.erase p
      rw [Store.erase_modify, h.permits]
    · rw [hhist]
      exact h.returned
  | close =>
    obtain ⟨t, hres, ht, -⟩ := System.close_spec h.inv
    obtain ⟨x, hx, -, hhist⟩ := h.inv.models.close
    obtain rfl := Except.ok.inj (hres.symm.trans (System.close_eq hx))
    refine ⟨_, by rw [System.exec, hres]; rfl, ht, h.permits, ?_⟩
    rw [hhist]
    exact h.returned

end Describes

omit [Waker W] in
/-- What the code and the machine start from: the count is cut off as the code cuts it off. -/
theorem new_eq (p : ℕ) :
    System.new P W p = System.new P W (p &&& Inner.maxPermits P) := by
  unfold System.new Tracked.new Inner.new
  simp only [Nat.and_assoc, Nat.and_self]

/-- **The semaphore is its machine** on 64-bit targets: whatever its clients do, within the
documented maximum, both do and answer the same. -/
theorem semaphore_follows_machine (p : ℕ) :
    SameRuns System.BoundedStep (Step (Inner.maxPermits .w64)) Shows (System.new .w64 W p)
      (Machine.new W (p &&& Inner.maxPermits .w64)) := by
  rw [System.boundedStep_eq, new_eq]
  apply SameRuns.of_exec (I := fun s m => Describes m s)
  · intro s m c h
    rw [System.Within, Within, h.total_eq, h.allowed_iff]
  · rintro s m c h ⟨hc, hmax⟩
    exact h.exec_spec System.toNat_le_maxPermits c hc hmax
  · exact fun s m h => h.shows
  · exact .new Nat.and_le_right

end Machine

end LocalSync.Semaphore
