/-
  The runs of the public `Semaphore`.

  `System.Inv s a` ties the system to the abstract semaphore: its low-level
  semaphore stands for `a`, the futures and their `AcquireResult`s agree, and
  no more permits circulate than the maximum.  Every allowed call that stays
  within the maximum returns, keeps the invariant, and moves exactly the
  permits it adds or forgets (`exec_spec`).

  The results about whole runs read the invariant off: conservation of
  permits, fairness, absence of dangling waiters and of lost wake-ups.
-/
import LocalSync.Equiv.Tracked
import LocalSync.Semaphore.System

namespace LocalSync.Semaphore.System

open Lib

variable {P : PointerWidth} {W : Type} [Waker W]

/-- **The invariant of the system.** -/
structure Inv (s : System P W) (a : Fair W) : Prop where
  models : s.sem.Models a
  results : s.results = a.sizes
  bound : s.total ≤ Inner.maxPermits P

/-- A step from `s` to `t` that brings in `n` permits and loses none. -/
structure Moves (s t : System P W) (n : ℕ) : Prop where
  added : t.added = s.added + n
  balance : t.total + t.forgotten = s.total + s.forgotten + n
  forgotten : s.forgotten ≤ t.forgotten

variable {s t : System P W} {a b : Fair W} {i : Addr} {p n : ℕ}

omit [Waker W] in
/-- The permits in circulation are those inside the abstract semaphore and those in the guards. -/
theorem total_of_refines (h : Refines s.sem.inner a []) :
    s.total = a.inside + s.permits.sum UInt32.toNat := by
  have hsum : s.sem.inner.acquires.sum Acquire.held = a.requests.sum Request.held := by
    rw [← h.requests, Store.sum_map]
    rfl
  rw [total, h.availablePermits, hsum, Fair.inside]
  omega

theorem total_eq (h : s.sem.Models a) : s.total = a.inside + s.permits.sum UInt32.toNat :=
  total_of_refines h.refines

theorem Inv.inside_le (h : Inv s a) : a.inside ≤ Inner.maxPermits P := by
  have hb := h.bound
  rw [total_eq h.models] at hb
  omega

omit [Waker W] in
/-- A step keeps the bound when the permits it brings in do. -/
theorem Moves.bound (h : Moves s t n) (hmax : s.total + n ≤ Inner.maxPermits P) :
    t.total ≤ Inner.maxPermits P := by
  have := h.balance
  have := h.forgotten
  omega

omit [Waker W] in
/-- A step that keeps the circulation. -/
theorem Moves.of_total (htotal : t.total = s.total) (hadded : t.added = s.added)
    (hforgotten : t.forgotten = s.forgotten) : Moves s t 0 :=
  ⟨hadded, by omega, hforgotten.ge⟩

/-- The live futures are the live requests. -/
theorem Inv.exists_request (h : Inv s a) (hi : (s.sem.inner.acquires.get? i).isSome = true) :
    ∃ r, a.requests.get? i = some r := by
  obtain ⟨q, hq⟩ := Option.isSome_iff_exists.mp hi
  exact ⟨q.request, by rw [h.models.get?_eq, hq]; rfl⟩

theorem new_inv {p : ℕ} (hp : p ≤ Inner.maxPermits P) :
    Inv (System.new P W p) (Fair.new W p) ∧ (System.new P W p).total = p := by
  have hmodels : (System.new P W p).sem.Models (Fair.new W p) := Tracked.new_models hp
  have htotal : (System.new P W p).total = p := by
    rw [total_eq hmodels]
    simp [System.new, Fair.inside, Fair.new]
  exact ⟨⟨hmodels, rfl, htotal.trans_le hp⟩, htotal⟩

/-! ### The calls -/

theorem addPermits_spec (h : Inv s a) (hmax : s.total + n ≤ Inner.maxPermits P) :
    ∃ t, s.addPermits n = .ok t ∧ Inv t (a.release n) ∧ Moves s t n := by
  have htotal := total_eq h.models
  obtain ⟨sem, hres, hm, -⟩ := h.models.release (n := n) (by omega)
  have hmoves : Moves s { s with sem, added := s.added + n } n := by
    refine ⟨rfl, ?_, le_rfl⟩
    rw [htotal, total_eq (a := a.release n) hm, Fair.inside_release h.models.sound]
    simp only
    omega
  refine ⟨_, ?_, ⟨hm, ?_, hmoves.bound hmax⟩, hmoves⟩
  · rw [addPermits, hres, ok_bind]
    rfl
  · rw [Fair.sizes_release]
    exact h.results

theorem acquireMany_spec (hP : ∀ n : UInt32, n.toNat ≤ Inner.maxPermits P) (h : Inv s a)
    (hi : s.sem.inner.acquires.get? i = none) (n : UInt32) :
    Inv (s.acquireMany i n) (a.acquire i n) ∧ Moves s (s.acquireMany i n) 0 := by
  have hnone : a.requests.get? i = none := by rw [h.models.get?_eq, hi]; rfl
  have hfit : 2 * n.toNat < 2 ^ P.bits := by
    have hbound := two_mul_maxPermits P
    have := hP n
    omega
  have hm : (s.acquireMany i n).sem.Models (a.acquire i n) := h.models.acquire hnone hfit
  have hmoves : Moves s (s.acquireMany i n) 0 := by
    refine .of_total ?_ rfl rfl
    rw [total_eq h.models, total_eq hm, Fair.inside_acquire hnone]
    rfl
  refine ⟨⟨hm, ?_, hmoves.bound h.bound⟩, hmoves⟩
  rw [Fair.sizes_acquire, ← h.results]
  rfl

/-- The number of an `AcquireResult` is that of its future. -/
theorem Inv.result (h : Inv s a) {r : Request W} (hr : a.requests.get? i = some r) :
    s.results.get? i = some r.size := by
  rw [h.results]
  exact Fair.sizes_of_get? hr

omit [Waker W] in
/-- A new guard. -/
theorem total_grant (s : System P W) (n : UInt32) :
    (s.grant n).2.total = s.total + n.toNat := by
  unfold total
  dsimp only [grant]
  rw [Store.sum_insert _ _ _ _ (Store.get?_fresh _)]
  omega

theorem poll_spec (h : Inv s a) {r : Request W} (hr : a.requests.get? i = some r)
    (hu : (s.sem.history.track i).finished = false) (cx : W) :
    ∃ o t, s.poll i cx = .ok (o, t) ∧ Inv t (a.poll i cx).2 ∧ Moves s t 0 ∧
      o = match (a.poll i cx).1 with
        | .pending => .pending
        | .ready (.error e) => .ready (.error e)
        | .ready (.ok ()) => .ready (.ok s.permits.fresh) := by
  obtain ⟨sem, hres, hm, -⟩ := h.models.poll hr hu h.inside_le cx
  have hinside := Fair.inside_poll cx hr (h.models.need_eq hr hu)
  have hsizes : s.results = (a.poll i cx).2.sizes := by
    rw [Fair.sizes_poll]
    exact h.results
  have htotal : ({ s with sem } : System P W).total
      = (a.poll i cx).2.inside + s.permits.sum UInt32.toNat := total_eq hm
  rw [poll, h.result hr]
  simp only
  rw [hres, ok_bind]
  have hstart := total_eq h.models
  generalize a.poll i cx = pa at hm hinside hsizes htotal
  obtain ⟨result, b⟩ := pa
  simp only at hm hinside hsizes htotal
  rcases result with (e | u) | _
  · have hmoves : Moves s ({ s with sem } : System P W) 0 := by
      refine .of_total ?_ rfl rfl
      simp at hinside
      omega
    exact ⟨_, _, rfl, ⟨hm, hsizes, hmoves.bound h.bound⟩, hmoves, rfl⟩
  · have hmoves : Moves s (({ s with sem } : System P W).grant r.size).2 0 := by
      refine .of_total ?_ rfl rfl
      rw [total_grant]
      simp at hinside
      omega
    exact ⟨_, _, rfl, ⟨hm, hsizes, hmoves.bound h.bound⟩, hmoves, rfl⟩
  · have hmoves : Moves s ({ s with sem } : System P W) 0 := by
      refine .of_total ?_ rfl rfl
      simp at hinside
      omega
    exact ⟨_, _, rfl, ⟨hm, hsizes, hmoves.bound h.bound⟩, hmoves, rfl⟩

theorem dropAcquire_spec (h : Inv s a) {r : Request W} (hr : a.requests.get? i = some r) :
    ∃ t, s.dropAcquire i = .ok t ∧ Inv t (a.cancel i) ∧ Moves s t 0 := by
  obtain ⟨sem, hres, hm, -⟩ := h.models.drop hr h.inside_le
  have hmoves : Moves s { s with sem, results := s.results.erase i } 0 := by
    refine .of_total ?_ rfl rfl
    rw [total_eq h.models, total_eq (a := a.cancel i) hm, Fair.inside_cancel h.models.sound hr]
  refine ⟨_, ?_, ⟨hm, ?_, hmoves.bound h.bound⟩, hmoves⟩
  · rw [dropAcquire, hres, ok_bind]
    rfl
  · rw [Fair.sizes_cancel, ← h.results]

theorem tryAcquireMany_spec (hP : ∀ n : UInt32, n.toNat ≤ Inner.maxPermits P) (h : Inv s a)
    (n : UInt32) :
    ∃ o t, s.tryAcquireMany n = .ok (o, t) ∧ Inv t (a.tryAcquire n).2 ∧ Moves s t 0 ∧
      o = match (a.tryAcquire n).1 with
        | .ok () => .ok s.permits.fresh
        | .error e => .error e := by
  obtain ⟨sem, hres, hm, -⟩ := h.models.tryAcquire (hP n) h.inside_le
  have hok := Fair.inside_tryAcquire_ok (a := a) (n := n)
  have herr := fun e => Fair.tryAcquire_error (a := a) (n := n) (e := e)
  have hsizes : s.results = (a.tryAcquire n).2.sizes := by
    rw [Fair.sizes_tryAcquire]
    exact h.results
  have htotal : ({ s with sem } : System P W).total
      = (a.tryAcquire n).2.inside + s.permits.sum UInt32.toNat := total_eq hm
  have hstart := total_eq h.models
  rw [tryAcquireMany, hres, ok_bind]
  generalize a.tryAcquire n = pa at hm hok herr hsizes htotal
  obtain ⟨result, b⟩ := pa
  simp only at hm hok herr hsizes htotal
  rcases result with e | u
  · have hb : b = a := herr e rfl
    have hmoves : Moves s ({ s with sem } : System P W) 0 := by
      refine .of_total ?_ rfl rfl
      rw [htotal, hb, hstart]
    exact ⟨_, _, rfl, ⟨hm, hsizes, hmoves.bound h.bound⟩, hmoves, rfl⟩
  · have hmoves : Moves s (({ s with sem } : System P W).grant n).2 0 := by
      refine .of_total ?_ rfl rfl
      have := hok rfl
      rw [total_grant]
      omega
    exact ⟨_, _, rfl, ⟨hm, hsizes, hmoves.bound h.bound⟩, hmoves, rfl⟩

theorem dropPermit_spec (h : Inv s a) {n : UInt32} (hp : s.permits.get? p = some n) :
    ∃ t, s.dropPermit p = .ok t ∧ Inv t (a.release n.toNat) ∧ Moves s t 0 := by
  have hstart := total_eq h.models
  have hsum := Store.sum_eq_add_erase _ _ _ UInt32.toNat hp
  have hbound := h.bound
  obtain ⟨sem, hres, hm, -⟩ := h.models.release (n := n.toNat) (by omega)
  have hmoves : Moves s { s with sem, permits := s.permits.erase p } 0 := by
    refine .of_total ?_ rfl rfl
    rw [hstart, total_eq (a := a.release n.toNat) hm, Fair.inside_release h.models.sound]
    simp only
    omega
  refine ⟨_, ?_, ⟨hm, ?_, hmoves.bound h.bound⟩, hmoves⟩
  · rw [dropPermit, hp]
    simp only
    rw [hres, ok_bind]
    rfl
  · rw [Fair.sizes_release]
    exact h.results

theorem forget_spec (h : Inv s a) {n : UInt32} (hp : s.permits.get? p = some n) :
    ∃ t, s.forget p = .ok t ∧ Inv t (a.release 0) ∧ Moves s t 0 := by
  have hstart := total_eq h.models
  have hsum := Store.sum_eq_add_erase _ _ _ UInt32.toNat hp
  have hsum' := Store.sum_modify _ _ _ (fun _ => 0) UInt32.toNat hp
  -- the guard is emptied first
  obtain ⟨s₁, hs₁⟩ : ∃ s₁ : System P W, s₁ = { s with
      permits := s.permits.modify p fun _ => 0, forgotten := s.forgotten + n.toNat } := ⟨_, rfl⟩
  have hm : s₁.sem.Models a := by
    rw [hs₁]
    exact h.models
  have htotal : s₁.total + n.toNat = s.total := by
    rw [total_eq hm, hs₁, hstart]
    simp only
    have h0 : (0 : UInt32).toNat = 0 := rfl
    omega
  have h₁ : Inv s₁ a := by
    refine ⟨hm, ?_, ?_⟩
    · rw [hs₁]
      exact h.results
    · have := h.bound
      omega
  obtain ⟨t, hres, ht, hmoves⟩ := dropPermit_spec (p := p) (n := 0) h₁ (by simp [hs₁, hp])
  have hforgotten : s₁.forgotten = s.forgotten + n.toNat := by rw [hs₁]
  refine ⟨t, ?_, ht, ?_, ?_, ?_⟩
  · rw [forget, hp, ← hres, hs₁]
    rfl
  · rw [hmoves.added, hs₁]
  · have := hmoves.balance
    omega
  · have := hmoves.forgotten
    omega

theorem close_spec (h : Inv s a) : ∃ t, s.close = .ok t ∧ Inv t a.close ∧ Moves s t 0 := by
  obtain ⟨sem, hres, hm, -⟩ := h.models.close
  have hmoves : Moves s { s with sem } 0 := by
    refine .of_total ?_ rfl rfl
    rw [total_eq h.models, total_eq (a := a.close) hm, Fair.inside_close]
  refine ⟨_, ?_, ⟨hm, ?_, hmoves.bound h.bound⟩, hmoves⟩
  · rw [close, hres, ok_bind]
    rfl
  · rw [Fair.sizes_close]
    exact h.results

/-- **One call.** An allowed call within the maximum returns, keeps the invariant, and moves
exactly the permits it adds or forgets. -/
theorem exec_spec (hP : ∀ n : UInt32, n.toNat ≤ Inner.maxPermits P) (h : Inv s a) (c : Action W)
    (hc : s.Allowed c) (hmax : s.total + c.amount ≤ Inner.maxPermits P) :
    ∃ o t b, s.exec c = .ok (o, t) ∧ Inv t b ∧ Moves s t c.amount := by
  cases c with
  | addPermits n =>
    obtain ⟨t, hres, ht, hmoves⟩ := addPermits_spec (n := n) h hmax
    exact ⟨_, t, _, by rw [exec, hres]; rfl, ht, hmoves⟩
  | acquireMany i n =>
    obtain ⟨ht, hmoves⟩ := acquireMany_spec hP h hc n
    exact ⟨_, _, _, rfl, ht, hmoves⟩
  | poll i cx =>
    obtain ⟨r, hr⟩ := h.exists_request hc.1
    obtain ⟨o, t, hres, ht, hmoves, -⟩ := poll_spec h hr hc.2 cx
    exact ⟨_, t, _, by rw [exec, hres]; rfl, ht, hmoves⟩
  | dropAcquire i =>
    obtain ⟨r, hr⟩ := h.exists_request hc
    obtain ⟨t, hres, ht, hmoves⟩ := dropAcquire_spec h hr
    exact ⟨_, t, _, by rw [exec, hres]; rfl, ht, hmoves⟩
  | tryAcquireMany n =>
    obtain ⟨o, t, hres, ht, hmoves, -⟩ := tryAcquireMany_spec hP h n
    exact ⟨_, t, _, by rw [exec, hres]; rfl, ht, hmoves⟩
  | dropPermit p =>
    obtain ⟨n, hp⟩ := Option.isSome_iff_exists.mp hc
    obtain ⟨t, hres, ht, hmoves⟩ := dropPermit_spec h hp
    exact ⟨_, t, _, by rw [exec, hres]; rfl, ht, hmoves⟩
  | forget p =>
    obtain ⟨n, hp⟩ := Option.isSome_iff_exists.mp hc
    obtain ⟨t, hres, ht, hmoves⟩ := forget_spec h hp
    exact ⟨_, t, _, by rw [exec, hres]; rfl, ht, hmoves⟩
  | close =>
    obtain ⟨t, hres, ht, hmoves⟩ := close_spec h
    exact ⟨_, t, _, by rw [exec, hres]; rfl, ht, hmoves⟩

/-! ### The calls, in terms of the low-level semaphore -/

section Low

variable {x : Tracked P W} {k : UInt32}

omit [Waker W] in
theorem addPermits_eq (hx : s.sem.release n = .ok x) :
    s.addPermits n = .ok { s with sem := x, added := s.added + n } := by
  rw [addPermits, hx]
  rfl

omit [Waker W] in
theorem dropAcquire_eq (hx : s.sem.drop i = .ok x) :
    s.dropAcquire i = .ok { s with sem := x, results := s.results.erase i } := by
  rw [dropAcquire, hx]
  rfl

omit [Waker W] in
theorem dropPermit_eq (hp : s.permits.get? p = some k) (hx : s.sem.release k.toNat = .ok x) :
    s.dropPermit p = .ok { s with sem := x, permits := s.permits.erase p } := by
  rw [dropPermit, hp]
  simp only
  rw [hx]
  rfl

omit [Waker W] in
theorem close_eq (hx : s.sem.close = .ok x) : s.close = .ok { s with sem := x } := by
  rw [close, hx]
  rfl

/-- How `poll` answers. -/
theorem poll_eq {cx : W} {r : Poll (Except AcquireError Unit)} (hk : s.results.get? i = some k) :
    s.sem.poll i cx = .ok (r, x) → s.poll i cx = .ok (match r with
      | .pending => (.pending, { s with sem := x })
      | .ready (.error e) => (.ready (.error e), { s with sem := x })
      | .ready (.ok ()) => (.ready (.ok s.permits.fresh), ({ s with sem := x }.grant k).2)) := by
  intro hres
  rw [poll, hk]
  simp only
  rw [hres, ok_bind]
  rcases r with (e | u) | _ <;> rfl

omit [Waker W] in
/-- How `try_acquire_many` answers. -/
theorem tryAcquireMany_eq {r : Except TryAcquireError Unit} :
    s.sem.tryAcquire k = .ok (r, x) → s.tryAcquireMany k = .ok (match r with
      | .ok () => (.ok s.permits.fresh, ({ s with sem := x }.grant k).2)
      | .error e => (.error e, { s with sem := x })) := by
  intro hres
  rw [tryAcquireMany, hres, ok_bind]
  rcases r with e | u <;> rfl

end Low

end LocalSync.Semaphore.System
