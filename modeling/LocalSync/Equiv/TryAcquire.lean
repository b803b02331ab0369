/-
  The two ways to permits: `try_acquire`, and the first poll of `acquire`.

  Both compare the request with the packed counter after a shift by one bit.
  `try_acquire` asserts before that the request does not exceed the maximum;
  `poll_acquire` does not, and where `usize` has 32 bits the shift can drop the
  highest bit of the request.  Then the poll grants a request that is not there
  (`first_poll`).  Everywhere else the two agree (`System.paths_agree_iff`).
-/
import LocalSync.Equiv.Wrapping

namespace LocalSync.Semaphore

open Lib

variable {P : PointerWidth} {W : Type}

/-- **`acquire` and `try_acquire` agree** on a request for `n` permits in the state `s`; the future
at the free address `i` is polled with the waker `cx`. -/
structure PathsAgree [Waker W] (s : Inner P W) (n : UInt32) (i : Addr) (cx : W) : Prop where
  /-- A request that is granted is within the maximum and takes the permits that it asks for, and
  `try_acquire` grants it with the same result; there is a future besides. -/
  granted : ∀ t, (s.acquire i n).poll i cx = .ok (.ready (.ok ()), t) →
    n.toNat ≤ Inner.maxPermits P ∧ t.availablePermits + n.toNat = s.availablePermits ∧
      ∃ s', s.tryAcquire n = .ok (.ok (), s') ∧ t = s'.acquire i n
  /-- A request that is refused is not granted by `try_acquire`. -/
  refused : ∀ e t, (s.acquire i n).poll i cx = .ok (.ready (.error e), t) →
    ∀ s', s.tryAcquire n ≠ .ok (.ok (), s')
  /-- For a request that has to wait, `try_acquire` finds no permits, or panics. -/
  queued : ∀ t, (s.acquire i n).poll i cx = .ok (.pending, t) →
    (∃ s', s.tryAcquire n = .ok (.error .noPermits, s')) ∨
      ∃ u message, s.tryAcquire n = .error u ∧ u.fault = .panic message

/-! ### The answer of the first poll decides -/

section Answers

variable [Waker W] {s s' t : Inner P W} {i : Addr} {n : UInt32} {cx : W}

theorem PathsAgree.of_refused {e : AcquireError}
    (hpoll : (s.acquire i n).poll i cx = .ok (.ready (.error e), t))
    (htry : ∀ s', s.tryAcquire n ≠ .ok (.ok (), s')) : PathsAgree s n i cx := by
  constructor
  · intro t' ht
    cases hpoll.symm.trans ht
  · intro _ _ _
    exact htry
  · intro t' ht
    cases hpoll.symm.trans ht

theorem PathsAgree.of_granted
    (hpoll : (s.acquire i n).poll i cx = .ok (.ready (.ok ()), s'.acquire i n))
    (hle : n.toNat ≤ Inner.maxPermits P)
    (htaken : (s'.acquire i n).availablePermits + n.toNat = s.availablePermits)
    (htry : s.tryAcquire n = .ok (.ok (), s')) : PathsAgree s n i cx := by
  constructor
  · intro t ht
    obtain ⟨-, rfl⟩ := Prod.mk.inj (Except.ok.inj (hpoll.symm.trans ht))
    exact ⟨hle, htaken, s', htry, rfl⟩
  · intro e t ht
    cases hpoll.symm.trans ht
  · intro t ht
    cases hpoll.symm.trans ht

theorem PathsAgree.of_queued (hpoll : (s.acquire i n).poll i cx = .ok (.pending, t))
    (htry : (∃ s', s.tryAcquire n = .ok (.error .noPermits, s')) ∨
      ∃ u message, s.tryAcquire n = .error u ∧ u.fault = .panic message) :
    PathsAgree s n i cx := by
  constructor
  · intro t' ht
    cases hpoll.symm.trans ht
  · intro e t' ht
    cases hpoll.symm.trans ht
  · intro _ _
    exact htry

end Answers

/-! ### What the two paths compute -/

section Paths

variable {s : Inner P W} {a : Fair W} {i : Addr} {n : UInt32}

/-- The state after `n` permits have been taken, as both paths compute it. -/
def Inner.taken (s : Inner P W) (n : UInt32) : Inner P W :=
  { s with permits := P.sub s.permits (2 * counted P n.toNat) }

/-- What is taken is missing from the counter. -/
theorem Refines.availablePermits_taken (h : Refines s a []) (hc : a.closed = false)
    (hav : counted P a.available = a.available) (hle : counted P n.toNat ≤ a.available) :
    (s.taken n).availablePermits + counted P n.toNat = a.available := by
  have hlt := two_mul_counted_lt P a.available
  rw [hav] at hlt
  have hperm : (s.taken n).permits = 2 * (a.available - counted P n.toNat) + false.toNat := by
    show P.sub s.permits (2 * counted P n.toNat) = 2 * (a.available - counted P n.toNat) + 0
    rw [h.permits_of_open hc, P.sub_eq (by omega) (by omega)]
    omega
  have hshift : (s.taken n).availablePermits = a.available - counted P n.toNat := by
    rw [Inner.availablePermits, hperm]
    exact packed_shiftRight _ _
  omega

/-- A new future has not queued. -/
theorem Inner.setQueued_acquire (s : Inner P W) (i : Addr) (n : UInt32) :
    (s.acquire i n).setQueued i false = s.acquire i n := by
  have hself : (s.acquires.insert i (Acquire.new n)).modify i ({ · with queued := false }) =
      s.acquires.insert i (Acquire.new n) :=
    Store.modify_eq_self _ _ _ fun q hq => by
      obtain rfl := Option.some.inj ((Store.get?_insert_self _ _ _).symm.trans hq)
      rfl
  simp only [Inner.setQueued, Inner.acquire, hself]

/-- **The first poll**, whatever the size of the request. -/
theorem first_poll [Waker W] (h : Refines s a []) (ha : a.Sound)
    (hi : s.acquires.get? i = none) (n : UInt32) (cx : W) :
    (a.closed = true ∧
      (s.acquire i n).poll i cx = .ok (.ready (.error .closed), s.acquire i n)) ∨
    (a.closed = false ∧ counted P n.toNat ≤ a.available ∧
      (s.acquire i n).poll i cx = .ok (.ready (.ok ()), (s.taken n).acquire i n)) ∨
    (a.closed = false ∧ a.available < counted P n.toNat ∧
      ∃ t, (s.acquire i n).poll i cx = .ok (.pending, t)) := by
  have hnone : a.requests.get? i = none := by
    rw [← h.requests, Store.get?_map, hi]
    rfl
  have h₁ := acquire_spec h hnone n
  have ha₁ := ha.acquire hnone n
  have hr : (a.acquire i n).requests.get? i = some (Request.new n) :=
    Store.get?_insert_self _ _ _
  cases hc : a.closed with
  | true =>
    refine Or.inl ⟨rfl, ?_⟩
    rw [poll_eq h₁ hr, if_pos (show (a.acquire i n).closed = true from hc)]
  | false =>
    refine Or.inr ?_
    rcases Nat.lt_or_ge a.available (counted P n.toNat) with hlt | hle
    · obtain ⟨t, ht, -⟩ := poll_enqueued h₁ ha₁ hr hc rfl rfl hlt cx
      exact Or.inr ⟨rfl, hlt, t, ht⟩
    · have hperm : (s.acquire i n).permits = 2 * a.available := h₁.permits_of_open hc
      have hcharge : 2 * counted P (Request.new n : Request W).size.toNat ≤
          (s.acquire i n).permits := by
        rw [hperm]
        exact Nat.mul_le_mul_left 2 hle
      refine Or.inl ⟨rfl, hle, ?_⟩
      rw [poll_eq h₁ hr, if_neg (by simp [Fair.acquire, hc]), if_pos ⟨rfl, hcharge⟩]
      exact congrArg (fun t => Except.ok (Poll.ready (Except.ok ()), t))
        ((s.taken n).setQueued_acquire i n)

/-- **`try_acquire`**, whatever the size of the request. -/
theorem tryAcquire_cases (h : Refines s a []) (n : UInt32) :
    (Inner.maxPermits P < n.toNat ∧
      ∃ u message, s.tryAcquire n = .error u ∧ u.fault = .panic message) ∨
    (n.toNat ≤ Inner.maxPermits P ∧ a.closed = true ∧
      s.tryAcquire n = .ok (.error .closed, s)) ∨
    (n.toNat ≤ Inner.maxPermits P ∧ a.closed = false ∧ a.available < n.toNat ∧
      s.tryAcquire n = .ok (.error .noPermits, s)) ∨
    (n.toNat ≤ Inner.maxPermits P ∧ a.closed = false ∧ n.toNat ≤ a.available ∧
      s.tryAcquire n = .ok (.ok (), s.taken n)) := by
  rcases Nat.lt_or_ge (Inner.maxPermits P) n.toNat with hlt | hle
  · exact Or.inl ⟨hlt, _, _, if_neg (Nat.not_le.mpr hlt), rfl⟩
  refine Or.inr ?_
  have hbound := two_mul_maxPermits P
  have hn : counted P n.toNat = n.toNat := counted_of_lt (by omega)
  have hand : s.permits &&& Inner.closed = a.closed.toNat := by
    rw [h.permits]
    exact packed_and_one _ _
  unfold Inner.tryAcquire
  rw [if_pos hle, shl_eq_counted]
  simp only [hand]
  cases hc : a.closed with
  | true => exact Or.inl ⟨hle, rfl, rfl⟩
  | false =>
    have hopen : ¬ ((Bool.toNat false == Inner.closed) = true) := by decide
    rw [if_neg hopen, h.permits_of_open hc]
    rcases Nat.lt_or_ge a.available n.toNat with hlt | hge
    · rw [if_pos (by omega)]
      exact Or.inr (Or.inl ⟨hle, rfl, hlt, rfl⟩)
    · rw [if_neg (by omega), ← h.permits_of_open hc]
      exact Or.inr (Or.inr ⟨hle, rfl, hge, rfl⟩)

end Paths

namespace System

variable [Waker W] {p : ℕ} {es : List (Action W × Output)} {s : System P W} {i : Addr}

/-- **The paths agree exactly** on a closed semaphore, on a request that fits into the packed
counter, and on one of which more than what is there is left after the shift. -/
theorem paths_agree_iff (hrun : Run Step (System.new P W p) es s)
    (hmax : s.total ≤ Inner.maxPermits P) (n : UInt32) (hi : s.sem.inner.acquires.get? i = none)
    (cx : W) : PathsAgree s.sem.inner n i cx ↔ s.sem.inner.isClosed = true ∨
      n.toNat < 2 ^ (P.bits - 1) ∨
        s.sem.inner.availablePermits < n.toNat % 2 ^ (P.bits - 1) := by
  obtain ⟨a, h⟩ := run_follows hrun
  have hrefines := h.sem.refines
  have hav := hrefines.availablePermits
  have hle : a.available ≤ Inner.maxPermits P := by
    rw [total] at hmax
    omega
  have hbound := two_mul_maxPermits P
  rw [two_pow_bits] at hbound
  have hfirst := first_poll hrefines h.sem.sound hi n cx
  have htry := tryAcquire_cases hrefines n
  rw [hav, hrefines.isClosed]
  constructor
  · intro hagree
    rcases hfirst with ⟨hc, -⟩ | ⟨-, -, hpoll⟩ | ⟨-, hlt, -⟩
    · exact Or.inl hc
    · obtain ⟨hn, -⟩ := hagree.granted _ hpoll
      right; left
      omega
    · exact Or.inr (Or.inr hlt)
  · intro hcond
    rcases hfirst with ⟨hc, hpoll⟩ | ⟨hc, hcharge, hpoll⟩ | ⟨hc, hlt, t, hpoll⟩
    · -- the semaphore is closed
      apply PathsAgree.of_refused hpoll
      intro s' hs'
      rcases htry with ⟨-, u, message, hu, -⟩ | ⟨-, -, hclosed⟩ | ⟨-, hopen, -⟩ | ⟨-, hopen, -⟩
      · cases hu.symm.trans hs'
      · cases hclosed.symm.trans hs'
      · cases hopen.symm.trans hc
      · cases hopen.symm.trans hc
    · -- the request is granted: no bit of it has been dropped
      have hn : counted P n.toNat = n.toNat := by
        rcases hcond with hclosed | hfit | hlt
        · cases hclosed.symm.trans hc
        · exact Nat.mod_eq_of_lt hfit
        · exact absurd hcharge (Nat.not_le.mpr hlt)
      have htaken := hrefines.availablePermits_taken hc h.sem.counter hcharge
      rw [hn] at hcharge htaken
      rcases htry with ⟨hlt, -⟩ | ⟨-, hclosed, -⟩ | ⟨-, -, hlt, -⟩ | ⟨hmaxn, -, -, hres⟩
      · omega
      · cases hclosed.symm.trans hc
      · omega
      · exact .of_granted hpoll hmaxn (htaken.trans hav.symm) hres
    · -- the request has to wait
      have hcounted : counted P n.toNat ≤ n.toNat := Nat.mod_le _ _
      apply PathsAgree.of_queued hpoll
      rcases htry with ⟨-, hpanics⟩ | ⟨-, hclosed, -⟩ | ⟨-, -, -, hres⟩ | ⟨-, -, hge, -⟩
      · exact Or.inr hpanics
      · cases hclosed.symm.trans hc
      · exact Or.inl ⟨s.sem.inner, hres⟩
      · omega

/-- Three of five permits are taken. -/
theorem paths_agree_iff_five : ∃ (es : List (Action ℕ × Output)) (s : System .w32 ℕ),
    Run Step (System.new .w32 ℕ 5) es s ∧ (PathsAgree s.sem.inner 3 7 1 ↔
      s.sem.inner.isClosed = true ∨ 3 < 2 ^ 31 ∨ s.sem.inner.availablePermits < 3 % 2 ^ 31) :=
  ⟨[], System.new .w32 ℕ 5, .nil, paths_agree_iff .nil (by decide +kernel) 3 rfl 1⟩

/-- On a 32-bit target the first poll grants `2 ^ 31` permits of none. -/
theorem paths_disagree : ∃ (es : List (Action ℕ × Output)) (s : System .w32 ℕ),
    Run Step (System.new .w32 ℕ 0) es s ∧ s.total ≤ Inner.maxPermits .w32 ∧
      s.sem.inner.acquires.get? 7 = none ∧ ¬ PathsAgree s.sem.inner 2147483648 7 1 := by
  have hpoll : (((System.new .w32 ℕ 0).sem.inner.acquire 7 2147483648).poll 7 1).toOption.map
      Prod.fst = some (.ready (.ok ())) := by decide +kernel
  refine ⟨[], System.new .w32 ℕ 0, .nil, by decide +kernel, rfl, fun hagree => ?_⟩
  cases hres : ((System.new .w32 ℕ 0).sem.inner.acquire 7 2147483648).poll 7 1 with
  | error u =>
    rw [hres] at hpoll
    cases hpoll
  | ok r =>
    obtain ⟨o, t⟩ := r
    rw [hres] at hpoll
    obtain rfl : o = .ready (.ok ()) := Option.some.inj hpoll
    obtain ⟨hle, -⟩ := hagree.granted t hres
    exact absurd hle (by decide)

end System

end LocalSync.Semaphore
