/-
  What a panic leaves of the semaphore.

  `add_permits` panics behind the hand-out: everybody has been served, and only
  the rest is lost, with the wakers of the last batch (`LimitPanic`).  So the
  state that a panic leaves follows an abstract semaphore again, in which the
  counter stays as it was (`Fair.lost`), and the invariant of the runs carries
  over to clients that catch panics (`Follows.exec_cases`).

  Hence the panics that are documented are the only faults there are, in every
  state that such clients can reach, the wait list is always intact, and the
  futures are those that clients have not dropped (`panics_are_safe`).  What is
  lost are permits that nobody waits for, and the wake-ups of the last batch; a
  panic makes no permits (`total_caught_le`).
-/
import LocalSync.Equiv.Stranded
import LocalSync.Semaphore.Panicking

namespace LocalSync.Semaphore

open Lib

variable {P : PointerWidth} {W : Type}

/-! ### The abstract semaphore -/

namespace Fair

variable {a : Fair W} {n : ℕ} {log : Addr → List W}

/-- `n` permits come in, and what nobody waits for is lost; `log` says who has been woken. -/
def lost (a : Fair W) (n : ℕ) (log : Addr → List W) : Fair W :=
  { a.release n with available := a.available, woken := log }

theorem Sound.lost (ha : a.Sound) (n : ℕ) (log : Addr → List W) : (a.lost n log).Sound := by
  have hr := ha.release n
  refine ⟨hr.nodup, hr.mem_waiting, hr.need_le, fun hq => ha.exhausted ?_, hr.whole, hr.awake⟩
  intro hnil
  have hsuffix : (a.release n).waiting <:+ [] := hnil ▸ handOut_suffix n a.waiting a
  exact hq (List.suffix_nil.mp hsuffix)

theorem sizes_lost (a : Fair W) (n : ℕ) (log : Addr → List W) : (a.lost n log).sizes = a.sizes :=
  Fair.sizes_release a n

theorem inside_lost_le (ha : a.Sound) (n : ℕ) (log : Addr → List W) :
    (a.lost n log).inside ≤ a.inside + n := by
  have hle := Fair.available_le_release a n
  rw [← Fair.inside_release ha]
  exact Nat.add_le_add_right hle _

theorem inside_wrap_le (a : Fair W) (P : PointerWidth) : (a.wrap P).inside ≤ a.inside :=
  Nat.add_le_add_right (Nat.mod_le _ _) _

end Fair

section Panic

variable {a : Fair W} {n : ℕ} {u : Unwind (Inner P W)} {batch : List (Addr × W)}

/-- **What the panic leaves.** -/
theorem LimitPanic.lost (h : LimitPanic a n u batch) :
    Refines u.state (a.lost n fun i => wakesOf i u.state.woken) [] where
  permits := h.refines.permits
  closed := h.refines.closed
  queue := h.refines.queue
  requests := h.refines.requests
  woken i := by rw [List.reverse_nil, List.append_nil]; rfl

end Panic

/-! ### The semaphore -/

namespace Tracked.Follows

variable [Waker W] {x : Tracked P W} {a : Fair W} {n : ℕ} {i : Addr} {r : Request W} {cx : W}
  {u : Unwind (Inner P W)} {batch : List (Addr × W)}

theorem lost {s : Inner P W} {log : Addr → List W} (h : Refines s (a.lost n log) [])
    (ha : a.Sound) (hav : counted P a.available = a.available) {y : History W}
    (hpos : 0 < y.clock) (hc : Clients a y) (hreg : Registered a y) :
    Follows { inner := s, history := y } (a.lost n log) where
  refines := h
  sound := ha.lost n log
  counter := hav
  clock_pos := hpos
  clients := by
    have hr := hc.release ha n
    exact ⟨hr.before, hr.fresh, hr.unfinished, hr.finished⟩
  registered := hreg.release ha n

/-- Releasing permits, if it panics. -/
theorem release_error (h : Follows x a) (hres : x.release n = .error u) :
    u.fault = .panic (limitMessage P) ∧
      ∃ log, Follows { x with inner := u.state } (a.lost n log) := by
  rcases release_cases h.refines h.sound h.counter n with ⟨-, s, hs, -⟩ | ⟨-, v, batch, hv, hpanic⟩
  · rw [Tracked.release, hs] at hres
    cases hres
  · rw [Tracked.release, hv, error_bind] at hres
    obtain rfl := Except.error.inj hres
    exact ⟨hpanic.fault, _, lost hpanic.lost h.sound h.counter h.clock_pos h.clients h.registered⟩

/-- Trying to take permits, if it panics. -/
theorem tryAcquire_panics (h : Follows x a) {m : UInt32} (hres : x.tryAcquire m = .error u) :
    u.fault = .panic (requestMessage P) ∧ u.state = x.inner := by
  by_cases hm : m.toNat ≤ Inner.maxPermits P
  · obtain ⟨s, hs, -⟩ := tryAcquire_spec h.refines hm h.counter
    rw [Tracked.tryAcquire, hs] at hres
    cases hres
  · rw [Tracked.tryAcquire, Inner.tryAcquire, if_neg hm, error_bind] at hres
    obtain rfl := Except.error.inj hres
    exact ⟨rfl, rfl⟩

/-- Polling, if it panics: the future had been served, and what the counter held is lost. -/
theorem poll_error (h : Follows x a) (hr : a.requests.get? i = some r)
    (hu : (x.history.track i).finished = false) (hres : x.poll i cx = .error u) :
    u.fault = .panic (limitMessage P) ∧
      ∃ log, Follows { x with inner := u.state } ((a.take a.available).lost a.available log) := by
  have hpoll : x.inner.poll i cx = .error u :=
    error_of_bind hres fun _ h => by cases h
  rcases poll_cases h.refines h.sound hr (h.need_eq hr hu) h.counter cx with
    ⟨-, s, hs, -⟩ | ⟨-, s, hs, -⟩ | ⟨hc, hq, hn, -⟩
  · rw [hpoll] at hs
    cases hs
  · rw [hpoll] at hs
    cases hs
  have htake : a.take a.available = { a with available := 0 } := by
    rw [Fair.take, Nat.sub_self]
  have h₁ := h.refines.cleared hc i
  rw [Store.modify_eq_self _ _ _ fun r' hr' => by
    obtain rfl := Option.some.inj (hr.symm.trans hr')
    exact Request.with_need_self (by omega)] at h₁
  rw [← htake] at h₁
  have hsound := h.sound.take a.available
  have hzero : counted P (a.take a.available).available = (a.take a.available).available := by
    rw [htake]
    exact Nat.zero_mod _
  rw [poll_eq h.refines hr, if_neg (by simp [hc]), if_neg (by simp [hq]), if_pos (by omega),
    show a.available - min r.need a.available = a.available by omega] at hpoll
  rcases addPermits_cases h₁ hsound.servable hzero a.available with
    ⟨-, s, hs, -⟩ | ⟨-, v, batch, hv, hpanic⟩
  · rw [hs] at hpoll
    cases hpoll
  · rw [hv, error_bind] at hpoll
    obtain rfl := Except.error.inj hpoll
    have hc := h.clients
    exact ⟨hpanic.fault, _, lost hpanic.lost hsound hzero h.clock_pos
      ⟨hc.before, hc.fresh, hc.unfinished, hc.finished⟩ h.registered⟩

/-- Polling, if the poll returns and the request fits. -/
theorem poll_fits (h : Follows x a) (hr : a.requests.get? i = some r)
    (hu : (x.history.track i).finished = false) (hfit : r.size.toNat ≤ Inner.maxPermits P)
    {o : Poll (Except AcquireError Unit)} {y : Tracked P W} (hres : x.poll i cx = .ok (o, y)) :
    o = (a.poll i cx).1 ∧ Refines y.inner (a.poll i cx).2 [] := by
  obtain ⟨⟨o', s⟩, hs, hres⟩ := bind_eq_ok.mp hres
  obtain ⟨rfl, rfl⟩ := Prod.mk.inj (Except.ok.inj hres)
  have hbound := two_mul_maxPermits P
  have hcharge : counted P r.size.toNat = r.size.toNat := counted_of_lt (by omega)
  rcases poll_cases h.refines h.sound hr (h.need_eq hr hu) h.counter cx with
    ⟨hslips, -⟩ | ⟨-, s', hs', hrefines⟩ | ⟨-, -, -, -, u, hu⟩
  · have hle := hslips.charge_le
    have hlt := hslips.lt_size
    omega
  · obtain ⟨rfl, rfl⟩ := Prod.mk.inj (Except.ok.inj (hs.symm.trans hs'))
    exact ⟨rfl, hrefines⟩
  · rw [hs] at hu
    cases hu

/-- Dropping a future, if the drop panics: it is gone all the same. -/
theorem drop_error (h : Follows x a) (hr : a.requests.get? i = some r)
    (hres : x.drop i = .error u) :
    u.fault = .panic (limitMessage P) ∧ ∃ log, Follows { x with inner := u.state.free i }
      ((a.remove i).lost (r.acquiredPermits P) log) := by
  have hdrop : x.inner.dropAcquire i = .error u :=
    error_of_bind hres fun _ h => by cases h
  cases hq : r.queued with
  | false =>
    rw [(dropAcquire_idle h.refines h.sound hr hq).1] at hdrop
    cases hdrop
  | true =>
    obtain ⟨s₁, heq, h₁⟩ := dropAcquire_queued h.refines hr hq
    have hi : i ∉ a.waiting.erase i := h.sound.nodup.not_mem_erase
    have hservable : Servable ({ a with waiting := a.waiting.erase i } : Fair W) :=
      ⟨h.sound.nodup.erase i, fun j hj => h.sound.servable.live j (List.mem_of_mem_erase hj)⟩
    rw [heq] at hdrop
    split_ifs at hdrop
    swap
    · cases hdrop
    rcases addPermits_cases h₁ hservable h.counter (r.acquiredPermits P) with
      ⟨-, s, hs, -⟩ | ⟨-, v, batch, hv, hpanic⟩
    · rw [hs] at hdrop
      cases hdrop
    · rw [hv, error_bind] at hdrop
      obtain rfl := Except.error.inj hdrop
      -- freeing the future before or after the hand-out makes no difference
      obtain ⟨b, hb⟩ : ∃ b, b = ({ a with waiting := a.waiting.erase i } : Fair W).release
          (r.acquiredPermits P) := ⟨_, rfl⟩
      have hib : i ∉ b.waiting := fun hm => hi ((Fair.handOut_suffix _ _ _).subset (hb ▸ hm))
      have hcomm : ({ b with requests := b.requests.erase i } : Fair W) =
          (a.remove i).release (r.acquiredPermits P) := by
        rw [hb]
        exact Fair.handOut_erase hi
      rw [hb] at hib
      have hfree := Refines.free hpanic.lost (i := i) hib
      have hlost : Refines (v.state.free i)
          ((a.remove i).lost (r.acquiredPermits P) fun j => wakesOf j v.state.woken) [] := by
        rw [Fair.lost, ← hcomm, hb]
        exact hfree
      exact ⟨hpanic.fault, _, lost hlost (h.sound.remove i) h.counter h.clock_pos
        (h.clients.remove i) (h.registered.remove h.sound i)⟩

end Tracked.Follows

/-! ### The system -/

namespace System

variable [Waker W] {s t : System P W} {a : Fair W} {c : Action W} {u : Unwind (Inner P W)}

/-! ### The permits

A counter that wraps and a panic lose permits, and do not make any.  Where every request fits, as on
64-bit targets, a poll takes what it was asked for, so that nobody else makes any. -/

theorem Follows.total_eq (h : Follows s a) : s.total = a.inside + s.permits.sum UInt32.toNat :=
  total_of_refines h.sem.refines

omit [Waker W] in
/-- Permits that come in, and are counted modulo the width. -/
theorem total_le_of_wrap {n : ℕ} (ha : a.Sound)
    (h : Refines t.sem.inner ((a.release n).wrap P) []) :
    t.total ≤ a.inside + n + t.permits.sum UInt32.toNat := by
  have hle := Fair.inside_wrap_le (a.release n) P
  rw [Fair.inside_release ha] at hle
  rw [total_of_refines h]
  omega

omit [Waker W] in
/-- Permits that come in, of which some are lost in a panic. -/
theorem total_le_of_lost {n : ℕ} {log : Addr → List W} (ha : a.Sound)
    (h : Refines t.sem.inner (a.lost n log) []) :
    t.total ≤ a.inside + n + t.permits.sum UInt32.toNat := by
  have hle := Fair.inside_lost_le ha n log
  rw [total_of_refines h]
  omega

omit [Waker W] in
/-- What a semaphore can hold fits into a word. -/
theorem lt_two_pow_of_le {n : ℕ} (h : n ≤ Inner.maxPermits P) : n < 2 ^ P.bits := by
  have hbound := two_mul_maxPermits P
  omega

/-- Polling, if the poll returns and the request fits: the new guard is for what has been taken. -/
theorem Follows.total_poll (h : Follows s a) {i : Addr} {q : Request W} {cx : W}
    (hq : a.requests.get? i = some q) (hu : (s.sem.history.track i).finished = false)
    (hfit : q.size.toNat ≤ Inner.maxPermits P) {o : Poll (Except AcquireError ℕ)}
    (hres : s.poll i cx = .ok (o, t)) : t.total = s.total := by
  rw [System.poll, h.result hq] at hres
  obtain ⟨⟨result, x⟩, hx, hres⟩ := bind_eq_ok.mp hres
  obtain ⟨hresult, hrefines⟩ := h.sem.poll_fits hq hu hfit hx
  have hstart := h.total_eq
  have hinside := Fair.inside_poll cx hq (h.sem.need_eq hq hu)
  have hend : ({ s with sem := x } : System P W).total =
      (a.poll i cx).2.inside + s.permits.sum UInt32.toNat := total_of_refines hrefines
  -- only `Ready(Ok)` takes permits out, and a guard is made for them
  rw [← hresult] at hinside
  rcases result with (e | v) | _
  · obtain ⟨-, rfl⟩ := Prod.mk.inj (Except.ok.inj hres)
    rw [if_neg (by simp)] at hinside
    omega
  · obtain ⟨-, rfl⟩ := Prod.mk.inj (Except.ok.inj hres)
    rw [if_pos rfl] at hinside
    have hgrant := total_grant ({ s with sem := x } : System P W) q.size
    exact hgrant.trans (by omega)
  · obtain ⟨-, rfl⟩ := Prod.mk.inj (Except.ok.inj hres)
    rw [if_neg (by simp)] at hinside
    omega

/-- Trying to take permits, if the call returns. -/
theorem Follows.total_tryAcquireMany (h : Follows s a) {n : UInt32} {o : Except TryAcquireError ℕ}
    (hres : s.tryAcquireMany n = .ok (o, t)) : t.total = s.total := by
  obtain ⟨⟨result, x⟩, hx, hres⟩ := bind_eq_ok.mp hres
  obtain ⟨hresult, hb⟩ := h.sem.tryAcquire hx
  have hstart := h.total_eq
  have hend : ({ s with sem := x } : System P W).total =
      (a.tryAcquire n).2.inside + s.permits.sum UInt32.toNat := total_of_refines hb.refines
  cases result with
  | error e =>
    obtain ⟨-, rfl⟩ := Prod.mk.inj (Except.ok.inj hres)
    rw [Fair.tryAcquire_error hresult.symm] at hend
    exact hend.trans hstart.symm
  | ok v =>
    obtain ⟨-, rfl⟩ := Prod.mk.inj (Except.ok.inj hres)
    have hinside := Fair.inside_tryAcquire_ok hresult.symm
    have hgrant := total_grant ({ s with sem := x } : System P W) n
    exact hgrant.trans (by omega)

/-- Dropping a guard, if the drop returns. -/
theorem Follows.total_dropPermit (h : Follows s a) {p : ℕ} (hres : s.dropPermit p = .ok t) :
    t.total ≤ s.total := by
  unfold System.dropPermit at hres
  cases hp : s.permits.get? p with
  | none =>
    rw [hp] at hres
    cases hres
  | some n =>
    rw [hp] at hres
    obtain ⟨x, hx, hres⟩ := bind_eq_ok.mp hres
    obtain rfl := Except.ok.inj hres
    have hend := total_le_of_wrap (t := { s with sem := x, permits := s.permits.erase p })
      h.sem.sound (h.sem.release hx).refines
    have hsum := Store.sum_eq_add_erase _ _ _ UInt32.toNat hp
    have hstart := h.total_eq
    dsimp only at hend
    omega

/-- Forgetting a guard, if the call returns: the guard is emptied, and then dropped. -/
theorem Follows.total_forget (h : Follows s a) {p : ℕ} {n : UInt32}
    (hn : s.permits.get? p = some n) (hres : s.forget p = .ok t) : t.total ≤ s.total := by
  have hemptied : Follows { s with
      permits := s.permits.modify p fun _ => 0
      forgotten := s.forgotten + (s.permits.get? p).elim 0 UInt32.toNat } a :=
    ⟨h.sem, h.results⟩
  have hdrop := hemptied.total_dropPermit hres
  have hsum := Store.sum_eq_add_erase _ _ _ UInt32.toNat hn
  have hsum' := Store.sum_modify _ _ _ (fun _ => 0) UInt32.toNat hn
  have h0 : (0 : UInt32).toNat = 0 := rfl
  have hstart := h.total_eq
  rw [hemptied.total_eq] at hdrop
  dsimp only at hdrop
  omega

/-- **One call**, if it returns, makes no permits. -/
theorem Follows.total_step (hP : ∀ n : UInt32, n.toNat ≤ Inner.maxPermits P) (h : Follows s a)
    {o : Output} (hstep : s.Step (c, o) t) : t.total ≤ s.total + c.amount := by
  obtain ⟨hc, hres⟩ := hstep
  have hsound := h.sem.sound
  have hstart := h.total_eq
  cases c with
  | addPermits n =>
    obtain ⟨u, hu, hres⟩ := bind_eq_ok.mp hres
    obtain ⟨-, rfl⟩ := Prod.mk.inj (Except.ok.inj hres)
    obtain ⟨x, hx, hu⟩ := bind_eq_ok.mp hu
    obtain rfl := Except.ok.inj hu
    have hend := total_le_of_wrap (t := { s with sem := x, added := s.added + n }) hsound
      (h.sem.release hx).refines
    dsimp only [Action.amount] at hend ⊢
    omega
  | acquireMany i n =>
    obtain ⟨-, rfl⟩ := Prod.mk.inj (Except.ok.inj hres)
    have hnone : a.requests.get? i = none := by
      rw [h.sem.get?_eq, show s.sem.inner.acquires.get? i = none from hc]
      rfl
    have hend := total_of_refines (s := s.acquireMany i n) (h.sem.acquire hnone n).refines
    rw [Fair.inside_acquire hnone] at hend
    exact (hend.trans hstart.symm).le
  | poll i cx =>
    obtain ⟨⟨r, u⟩, hu, hres⟩ := bind_eq_ok.mp hres
    obtain ⟨-, rfl⟩ := Prod.mk.inj (Except.ok.inj hres)
    obtain ⟨q, hq⟩ := h.exists_request hc.1
    exact (h.total_poll hq hc.2 (hP q.size) hu).le
  | dropAcquire i =>
    obtain ⟨u, hu, hres⟩ := bind_eq_ok.mp hres
    obtain ⟨-, rfl⟩ := Prod.mk.inj (Except.ok.inj hres)
    obtain ⟨x, hx, hu⟩ := bind_eq_ok.mp hu
    obtain rfl := Except.ok.inj hu
    obtain ⟨q, hq⟩ := h.exists_request hc
    have hend := total_le_of_wrap (t := { s with sem := x, results := s.results.erase i })
      (hsound.remove i) (h.sem.drop hq hx).refines
    -- what the future held goes out with it, and comes in again as what it gives back
    have hremove := Fair.inside_remove hq
    rw [hsound.acquiredPermits_eq hq (lt_two_pow_of_le (hP q.size))] at hend
    dsimp only [Action.amount] at hend ⊢
    omega
  | tryAcquireMany n =>
    obtain ⟨⟨r, u⟩, hu, hres⟩ := bind_eq_ok.mp hres
    obtain ⟨-, rfl⟩ := Prod.mk.inj (Except.ok.inj hres)
    exact (h.total_tryAcquireMany hu).le
  | dropPermit p =>
    obtain ⟨u, hu, hres⟩ := bind_eq_ok.mp hres
    obtain ⟨-, rfl⟩ := Prod.mk.inj (Except.ok.inj hres)
    exact h.total_dropPermit hu
  | forget p =>
    obtain ⟨u, hu, hres⟩ := bind_eq_ok.mp hres
    obtain ⟨-, rfl⟩ := Prod.mk.inj (Except.ok.inj hres)
    obtain ⟨n, hn⟩ := Option.isSome_iff_exists.mp hc
    exact h.total_forget hn hu
  | close =>
    obtain ⟨u, hu, hres⟩ := bind_eq_ok.mp hres
    obtain ⟨-, rfl⟩ := Prod.mk.inj (Except.ok.inj hres)
    obtain ⟨x, hx, hu⟩ := bind_eq_ok.mp hu
    obtain rfl := Except.ok.inj hu
    obtain ⟨y, hy, hb⟩ := h.sem.close
    obtain rfl := Except.ok.inj (hx.symm.trans hy)
    have hend := total_of_refines (s := { s with sem := x }) hb.refines
    rw [Fair.inside_close] at hend
    exact (hend.trans hstart.symm).le

/-- **One call that panics**: what is left follows an abstract semaphore again, with no more permits
than there were and came in. -/
theorem Follows.unwound (h : Follows s a) (hc : s.Allowed c) (hres : s.exec c = .error u) :
    (u.fault = .panic (limitMessage P) ∨ u.fault = .panic (requestMessage P)) ∧
      (∃ b, Follows (s.unwound c u.state) b) ∧ ((∀ n : UInt32, n.toNat ≤ Inner.maxPermits P) →
        (s.unwound c u.state).total ≤ s.total + c.amount) := by
  have hstart := h.total_eq
  have hsound := h.sem.sound
  have hresults : ∀ n log, s.results = (a.lost n log).sizes := fun n log =>
    h.results.trans (Fair.sizes_lost a n log).symm
  -- whatever a call does with what the semaphore answers, it returns
  cases c with
  | addPermits n =>
    have hadd := error_of_bind hres fun _ h => by cases h
    have hrelease := error_of_bind hadd fun _ h => by cases h
    obtain ⟨hfault, log, hlost⟩ := h.sem.release_error hrelease
    refine ⟨.inl hfault, ⟨_, hlost, hresults n log⟩, fun _ => ?_⟩
    have hend := total_le_of_lost (t := s.unwound (.addPermits n) u.state) hsound hlost.refines
    dsimp only [System.unwound, Action.amount] at hend ⊢
    omega
  | acquireMany i n => cases hres
  | poll i cx =>
    have hpoll := error_of_bind hres fun _ h => by cases h
    obtain ⟨q, hq⟩ := h.exists_request hc.1
    rw [System.poll, h.result hq] at hpoll
    rcases bind_eq_error.mp hpoll with herror | ⟨⟨r, x⟩, -, hres'⟩
    · obtain ⟨hfault, log, hlost⟩ := h.sem.poll_error hq hc.2 herror
      refine ⟨.inl hfault, ⟨_, hlost, h.results.trans
        (Fair.sizes_lost (a.take _) _ log).symm⟩, fun _ => ?_⟩
      -- what the counter held is taken out, and does not all come back
      have hend := total_le_of_lost (t := s.unwound (.poll i cx) u.state) (hsound.take _)
        hlost.refines
      have htake := Fair.inside_take (a := a) le_rfl
      dsimp only [System.unwound, Action.amount] at hend ⊢
      omega
    · rcases r with (e | v) | _ <;> cases hres'
  | dropAcquire i =>
    have hdrop := error_of_bind hres fun _ h => by cases h
    have herror := error_of_bind hdrop fun _ h => by cases h
    obtain ⟨q, hq⟩ := h.exists_request hc
    obtain ⟨hfault, log, hlost⟩ := h.sem.drop_error hq herror
    refine ⟨.inl hfault, ⟨_, hlost, ?_⟩, fun hP => ?_⟩
    · rw [Fair.sizes_lost]
      show s.results.erase i = (a.requests.erase i).map Request.size
      rw [h.results]
      exact (Store.map_erase _ _ _).symm
    · have hend := total_le_of_lost (t := s.unwound (.dropAcquire i) u.state) (hsound.remove i)
        hlost.refines
      have hremove := Fair.inside_remove hq
      rw [hsound.acquiredPermits_eq hq (lt_two_pow_of_le (hP q.size))] at hend
      dsimp only [System.unwound, Action.amount] at hend ⊢
      omega
  | tryAcquireMany n =>
    have htry := error_of_bind hres fun _ h => by cases h
    rcases bind_eq_error.mp htry with herror | ⟨⟨r, x⟩, -, hres'⟩
    · obtain ⟨hfault, hstate⟩ := h.sem.tryAcquire_panics herror
      have hsame : s.unwound (.tryAcquireMany n) u.state = s := by
        rw [hstate]
        rfl
      rw [hsame]
      exact ⟨.inr hfault, ⟨a, h⟩, fun _ => Nat.le_add_right _ _⟩
    · rcases r with e | v <;> cases hres'
  | dropPermit p =>
    have hdrop := error_of_bind hres fun _ h => by cases h
    obtain ⟨n, hn⟩ := Option.isSome_iff_exists.mp hc
    rw [System.dropPermit, hn] at hdrop
    have hrelease := error_of_bind hdrop fun _ h => by cases h
    obtain ⟨hfault, log, hlost⟩ := h.sem.release_error hrelease
    refine ⟨.inl hfault, ⟨_, hlost, hresults _ log⟩, fun _ => ?_⟩
    have hend := total_le_of_lost (t := s.unwound (.dropPermit p) u.state) hsound hlost.refines
    have hsum := Store.sum_eq_add_erase _ _ _ UInt32.toNat hn
    dsimp only [System.unwound, Action.amount] at hend ⊢
    omega
  | forget p =>
    have hforget := error_of_bind hres fun _ h => by cases h
    obtain ⟨n, hn⟩ := Option.isSome_iff_exists.mp hc
    rw [System.forget, System.dropPermit] at hforget
    dsimp only at hforget
    rw [Store.get?_modify_self, hn] at hforget
    -- nothing is released, so nothing panics
    cases hforget
  | close =>
    have hclose := error_of_bind hres fun _ h => by cases h
    have herror := error_of_bind hclose fun _ h => by cases h
    obtain ⟨y, hy, -⟩ := h.sem.close
    rw [hy] at herror
    cases herror

/-- **Every call** returns, or panics on one of the limits; it leaves a system that follows an
abstract semaphore. -/
theorem Follows.exec_cases (h : Follows s a) (hc : s.Allowed c) :
    (∃ o t b, s.exec c = .ok (o, t) ∧ Follows t b) ∨
      ∃ u b, s.exec c = .error u ∧ Follows (s.unwound c u.state) b ∧
        (u.fault = .panic (limitMessage P) ∨ u.fault = .panic (requestMessage P)) := by
  cases hres : s.exec c with
  | ok r =>
    obtain ⟨o, t⟩ := r
    obtain ⟨b, hb, -⟩ := h.step (e := (c, o)) ⟨hc, hres⟩
    exact .inl ⟨o, t, b, rfl, hb⟩
  | error u =>
    obtain ⟨hfault, ⟨b, hb⟩, -⟩ := h.unwound hc hres
    exact .inr ⟨u, b, rfl, hb, hfault⟩

theorem Follows.caught {e : Action W × Option Output} (h : Follows s a) (hstep : s.CaughtStep e t) :
    ∃ b, Follows t b := by
  cases hstep with
  | returns hstep =>
    obtain ⟨b, hb, -⟩ := h.step hstep
    exact ⟨b, hb⟩
  | panics hc hres _ => exact (h.unwound hc hres).2.1

theorem Follows.total_caught (hP : ∀ n : UInt32, n.toNat ≤ Inner.maxPermits P)
    {e : Action W × Option Output} (h : Follows s a) (hstep : s.CaughtStep e t) :
    t.total ≤ s.total + e.1.amount := by
  cases hstep with
  | returns hstep => exact h.total_step hP hstep
  | panics hc hres _ => exact (h.unwound hc hres).2.2 hP

/-- **In every state** that clients reach who catch panics, the system follows an abstract
semaphore. -/
theorem caught_follows {p : ℕ} {es : List (Action W × Option Output)}
    (hrun : Run CaughtStep (System.new P W p) es s) : ∃ a, Follows s a := by
  refine hrun.invariant (I := fun t => ∃ a, Follows t a) ?_ ⟨_, Tracked.new_follows P W p, rfl⟩
  rintro s e t ⟨a, h⟩ hstep
  exact h.caught hstep

/-- **No run makes permits**: there are never more than at the start and came in. -/
theorem total_caught_le (hP : ∀ n : UInt32, n.toNat ≤ Inner.maxPermits P) {p : ℕ}
    {es : List (Action W × Option Output)} (hrun : Run CaughtStep (System.new P W p) es s) :
    s.total ≤ p + (es.map fun e => e.1.amount).sum := by
  induction hrun with
  | nil =>
    have hnew : (System.new P W p).total = p &&& Inner.maxPermits P := by
      rw [total_of_refines (Tracked.new_follows P W p).refines]
      simp [System.new, Fair.inside, Fair.new]
    rw [hnew]
    exact Nat.and_le_left
  | @snoc es e t u hrun hstep ih =>
    obtain ⟨a, h⟩ := caught_follows hrun
    have hstep := h.total_caught hP hstep
    rw [List.map_append, List.sum_append, List.map_singleton, List.sum_singleton]
    omega

/-- The live futures are those with a result. -/
theorem Follows.isSome_results (h : Follows s a) (i : Addr) :
    (s.results.get? i).isSome = (s.sem.inner.acquires.get? i).isSome := by
  rw [h.results, Fair.sizes, Store.get?_map, h.sem.get?_eq]
  cases s.sem.inner.acquires.get? i <;> rfl

/-! ### The result -/

/-- **What holds** in a state with the wait list `q`, whatever has panicked before. -/
structure PanicSafe (s : System P W) (q : List Addr) : Prop where
  /-- A call that is allowed returns, or panics on one of the limits: no other assertion fails, no
  memory is read after it was freed, and every loop ends. -/
  answers : ∀ c, s.Allowed c → (∃ o t, s.exec c = .ok (o, t)) ∨ ∃ u, s.exec c = .error u ∧
    (u.fault = .panic (limitMessage P) ∨ u.fault = .panic (requestMessage P))
  /-- The wait list holds exactly the futures that wait. -/
  noDangling : NoDangling s q
  exhausted : q ≠ [] → s.sem.inner.availablePermits = 0
  /-- An `add_permits` that panics has served everybody, and leaves the counter as it was. -/
  limit : ∀ n u, s.sem.inner.addPermits n = .error u → u.state.WaitList [] ∧
    u.state.availablePermits = s.sem.inner.availablePermits
  /-- A panic takes no future with it, but the one that was being dropped. -/
  kept : ∀ c u, s.Allowed c → s.exec c = .error u → ∀ i, c ≠ .dropAcquire i →
    (s.sem.inner.acquires.get? i).isSome = true →
      ((s.unwound c u.state).sem.inner.acquires.get? i).isSome = true

omit [Waker W] in
theorem results_unwound {x : Inner P W} {i : Addr} (hc : c ≠ .dropAcquire i) :
    (s.unwound c x).results.get? i = s.results.get? i := by
  cases c with
  | dropAcquire j =>
    apply Store.get?_erase_of_ne
    rintro rfl
    exact hc rfl
  | _ => rfl

theorem Follows.panicSafe (h : Follows s a) : PanicSafe s a.waiting where
  answers c hc := by
    rcases h.exec_cases hc with ⟨o, t, b, hres, -⟩ | ⟨u, b, hres, -, hfault⟩
    · exact .inl ⟨o, t, hres⟩
    · exact .inr ⟨u, hres, hfault⟩
  noDangling := noDangling_of_refines h.sem.refines h.sem.sound fun i r hr hfin =>
    (h.sem.clients.finished i r hr hfin).2
  exhausted hq := h.sem.refines.availablePermits.trans (h.sem.sound.exhausted hq)
  limit n u hu := by
    have ha := h.sem.sound
    rcases Semaphore.addPermits_cases h.sem.refines ha.servable h.sem.counter n with
      ⟨-, t, ht, -⟩ | ⟨hlt, v, batch, hv, hpanic⟩
    · rw [hu] at ht
      cases ht
    obtain rfl := Except.error.inj (hu.symm.trans hv)
    have hnil : (a.release n).waiting = [] := (ha.handsOut_all (by omega)).waiting
    refine ⟨?_, hpanic.lost.availablePermits.trans h.sem.refines.availablePermits.symm⟩
    have hqueue := hpanic.lost.queue
    rwa [Fair.lost, hnil] at hqueue
  kept c u hc hres i hne hi := by
    obtain ⟨-, ⟨b, hb⟩, -⟩ := h.unwound hc hres
    rw [← hb.isSome_results, results_unwound hne, h.isSome_results]
    exact hi

/-- **A caught panic leaves a semaphore that works**, on targets of any width: whatever was passed
to the constructor and to the calls, and whatever has panicked, in every state.  Where every request
fits, as on 64-bit targets, no permits have been made either. -/
theorem panics_are_safe {p : ℕ} {es : List (Action W × Option Output)}
    (hrun : Run CaughtStep (System.new P W p) es s) :
    (∃ q, PanicSafe s q) ∧ ((∀ n : UInt32, n.toNat ≤ Inner.maxPermits P) →
      s.total ≤ p + (es.map fun e => e.1.amount).sum) := by
  obtain ⟨a, h⟩ := caught_follows hrun
  exact ⟨⟨a.waiting, h.panicSafe⟩, fun hP => total_caught_le hP hrun⟩

/-- A request waits, too many permits come in, and the request gets its permit after the panic. -/
theorem panics_are_safe_served : ∃ (es : List (Action ℕ × Option Output)) (s : System .w64 ℕ),
    Run CaughtStep (System.new .w64 ℕ 0) es s ∧ es.map (fun e => e.2.isSome) =
      [true, true, false, true] ∧ (s.permits.get? 1).isSome = true ∧ (∃ q, PanicSafe s q) ∧
        s.total ≤ 0 + (es.map fun e => e.1.amount).sum := by
  have hcheck : (replay System.caughtCall (System.new .w64 ℕ 0) [.acquireMany 7 1, .poll 7 1,
      .addPermits 2305843009213693953, .poll 7 1]).map
      (fun r => (r.1.map fun e => e.2.isSome, (r.2.permits.get? 1).isSome)) =
        some ([true, true, false, true], true) := by decide +kernel
  obtain ⟨⟨es, s⟩, hres, hs⟩ := Option.map_eq_some_iff.mp hcheck
  obtain ⟨hes, hpermit⟩ := Prod.mk.inj hs
  have hrun := run_of_replay caughtStep_of_caughtCall hres
  obtain ⟨hsafe, htotal⟩ := panics_are_safe hrun
  exact ⟨es, s, hrun, hes, hpermit, hsafe, htotal toNat_le_maxPermits⟩

end System

end LocalSync.Semaphore
