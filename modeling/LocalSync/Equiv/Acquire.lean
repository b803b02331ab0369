/-
  The remaining operations of the low-level semaphore: creation, `try_acquire`,
  `close`, and the life of an `Acquire` future from `acquire` over its polls to
  its drop.

  As in `Equiv.Semaphore`, each operation has one theorem: it does not fault,
  and it commutes with its abstract counterpart.
-/
import LocalSync.Equiv.Semaphore

namespace LocalSync.Semaphore

open Lib LinkedList

variable {P : PointerWidth} {W : Type} {s : Inner P W} {a : Fair W} {i : Addr} {r : Request W}

/-! ### Creation and `try_acquire` -/

theorem land_maxPermits (P : PointerWidth) {n : ℕ} (hn : n ≤ Inner.maxPermits P) :
    n &&& Inner.maxPermits P = n := by
  have hmax : Inner.maxPermits P = 2 ^ (P.bits - 3) - 1 := by
    have hb : 2 ^ P.bits = 2 ^ (P.bits - 3) * 2 ^ 3 := by
      rw [← Nat.pow_add, Nat.sub_add_cancel (Nat.le_trans (by decide) P.le_bits)]
    have hpos : 0 < 2 ^ (P.bits - 3) := Nat.two_pow_pos _
    rw [Inner.maxPermits, PointerWidth.usizeMax, Nat.shiftRight_eq_div_pow, hb]
    omega
  have hpos : 0 < 2 ^ (P.bits - 3) := Nat.two_pow_pos _
  rw [hmax] at hn ⊢
  rw [Nat.and_two_pow_sub_one_eq_mod]
  exact Nat.mod_eq_of_lt (by omega)

/-- The constructor masks the number of permits. -/
theorem new_mask (P : PointerWidth) (W : Type) (n : ℕ) :
    Inner.new P W n = Inner.new P W (n &&& Inner.maxPermits P) := by
  simp only [Inner.new, Nat.and_assoc, Nat.and_self]

/-- **`new`** starts the abstract semaphore. -/
theorem new_spec (W : Type) {n : ℕ} (hn : n ≤ Inner.maxPermits P) :
    Refines (Inner.new P W n) (Fair.new W n) [] where
  permits := by
    have hbound := two_mul_maxPermits P
    show P.shl (n &&& Inner.maxPermits P) 1 = 2 * n + 0
    rw [land_maxPermits P hn, P.shl_one_eq (by omega)]
    rfl
  closed := rfl
  queue := new_represents
  requests := rfl
  woken _ := rfl

/-- **`try_acquire`** reads and takes from the counter only. -/
theorem tryAcquire_spec (h : Refines s a []) {n : UInt32} (hn : n.toNat ≤ Inner.maxPermits P)
    (hav : counted P a.available = a.available) :
    ∃ s', s.tryAcquire n = .ok ((a.tryAcquire n).1, s') ∧ Refines s' (a.tryAcquire n).2 [] := by
  have hbound := two_mul_maxPermits P
  have hlt := two_mul_counted_lt P a.available
  rw [hav] at hlt
  have hshl : P.shl n.toNat Inner.permitShift = 2 * n.toNat := P.shl_one_eq (by omega)
  have hand : s.permits &&& Inner.closed = a.closed.toNat := by
    rw [h.permits]
    exact packed_and_one _ _
  unfold Inner.tryAcquire Fair.tryAcquire
  rw [if_pos hn, hshl]
  simp only [hand]
  cases hc : a.closed with
  | true => exact ⟨s, rfl, h⟩
  | false =>
    have hperm : s.permits = 2 * a.available := by rw [h.permits, hc]; rfl
    have hopen : ¬ ((Bool.toNat false == Inner.closed) = true) := by decide
    rw [if_neg hopen, hperm, if_neg Bool.false_ne_true]
    by_cases hn' : a.available < n.toNat
    · have hlt' : 2 * a.available < 2 * n.toNat := by omega
      rw [if_pos hn', if_pos hlt']
      exact ⟨s, rfl, h⟩
    · have hlt' : ¬ 2 * a.available < 2 * n.toNat := by omega
      rw [if_neg hn', if_neg hlt']
      refine ⟨_, rfl, h.setPermits ?_⟩
      rw [hc, P.sub_eq (by omega) (by omega)]
      show 2 * a.available - 2 * n.toNat = 2 * (a.available - n.toNat) + 0
      omega

/-- `try_acquire` panics when it is asked for more than the maximum. -/
theorem tryAcquire_error (s : Inner P W) {n : UInt32} (hn : Inner.maxPermits P < n.toNat) :
    ∃ u, s.tryAcquire n = .error u :=
  ⟨_, if_neg (Nat.not_le.mpr hn)⟩

/-! ### Closing -/

theorem wakeUp_need_eq (hr : a.requests.get? i = some r) :
    (a.wakeUp i (a.need i)).requests = a.requests.modify i ({ · with waker := none }) :=
  Store.ext_get? fun j => by
    by_cases hj : j = i
    · subst hj
      simp [Fair.wakeUp, Fair.need, hr]
    · simp [Fair.wakeUp, Store.get?_modify, hj]

/-- The loop of `close` wakes the queue. -/
theorem closeLoop_spec (fuel : ℕ) {q : List Addr} (h : Refines s a []) (hq : a.waiting = q)
    (hlive : ∀ i ∈ q, ∃ r, a.requests.get? i = some r) (hnd : q.Nodup) (hfuel : q.length < fuel) :
    ∃ s', Inner.closeLoop fuel s = .ok s' ∧ Refines s' (Fair.wakeAll q a) [] := by
  induction q generalizing s a fuel with
  | nil =>
    obtain ⟨fuel, rfl⟩ : ∃ f, fuel = f + 1 := ⟨fuel - 1, by omega⟩
    refine ⟨s, ?_, h⟩
    rw [Inner.closeLoop, h.popBack_nil hq, ok_bind]
  | cons i q ih =>
    obtain ⟨fuel, rfl⟩ : ∃ f, fuel = f + 1 := ⟨fuel - 1, by omega⟩
    obtain ⟨hi, hnd⟩ := List.nodup_cons.mp hnd
    obtain ⟨r, hr⟩ := hlive i (List.mem_cons_self ..)
    obtain ⟨s₁, hpop, h₁⟩ := h.popBack hq
    obtain ⟨s₂, htake, h₂⟩ := h₁.takeWaker hr
    have hlive' : ∀ j ∈ q, ∃ r, (a.wakeUp i (a.need i)).requests.get? j = some r := by
      intro j hj
      obtain ⟨r', hr'⟩ := hlive j (List.mem_cons_of_mem _ hj)
      exact ⟨r', (Store.get?_modify_of_ne _ _ (ne_of_mem_of_not_mem hj hi)).trans hr'⟩
    have hw : (a.wakeUp i (a.need i)).waiting = q := by simp [Fair.wakeUp, hq]
    -- the waker in the slot, if there is one, is called at once
    have hstep : ∃ s₃, Inner.closeLoop (fuel + 1) s = Inner.closeLoop fuel s₃ ∧
        Refines s₃ (a.wakeUp i (a.need i)) [] := by
      rw [Inner.closeLoop, hpop, ok_bind]
      simp only
      rw [htake, ok_bind]
      have heq := wakeUp_need_eq hr
      cases hwk : r.waker with
      | none =>
        refine ⟨s₂, rfl, ?_⟩
        have hwoken : (a.wakeUp i (a.need i)).woken = a.woken := by
          simp [Fair.wakeUp, Fair.waker_of_get? hr, hwk]
        exact ⟨h₂.permits, h₂.closed, hw ▸ h₂.queue, h₂.requests.trans heq.symm,
          fun j => hwoken ▸ h₂.woken j⟩
      | some w =>
        have h₃ := (h₂.push (i := i) (fun e he => by cases he) w).flush
        refine ⟨_, rfl, ?_⟩
        have hwoken : (a.wakeUp i (a.need i)).woken
            = Function.update a.woken i (a.woken i ++ [w]) := by
          simp [Fair.wakeUp, Fair.waker_of_get? hr, hwk]
        exact ⟨h₃.permits, h₃.closed, hw ▸ h₃.queue, h₃.requests.trans heq.symm,
          fun j => hwoken ▸ h₃.woken j⟩
    obtain ⟨s₃, hloop, h₃⟩ := hstep
    rw [List.length_cons] at hfuel
    obtain ⟨s', hres, h'⟩ := ih fuel h₃ hw hlive' hnd (by omega)
    exact ⟨s', hloop.trans hres, h'⟩

/-- **`close`** sets the bit and wakes everybody. -/
theorem close_spec (h : Refines s a []) (ha : a.Sound) :
    ∃ s', s.close = .ok s' ∧ Refines s' a.close [] := by
  have h₁ : Refines
      ({ s with permits := s.permits ||| Inner.closed,
                waiters := { s.waiters with closed := true } } : Inner P W)
      { a with closed := true } [] :=
    ⟨by rw [h.permits]; exact packed_or_one _ _, rfl, h.queue, h.requests, h.woken⟩
  refine closeLoop_spec _ h₁ rfl (fun i hi => ?_) ha.nodup
    (Nat.lt_succ_of_le (h.length_waiting_le ha.servable))
  obtain ⟨r, hr, -⟩ := ha.exists_of_mem hi
  exact ⟨r, hr⟩

/-! ### `Acquire`: creation -/

/-- **`acquire`** adds a request. -/
theorem acquire_spec (h : Refines s a []) (hi : a.requests.get? i = none) (n : UInt32) :
    Refines (s.acquire i n) (a.acquire i n) [] := by
  have hnone : s.acquires.get? i = none := by
    rw [← h.requests, Store.get?_map] at hi
    exact Option.map_eq_none_iff.mp hi
  have hlinks : nextOf (s.acquires.insert i (Acquire.new n)) = nextOf s.acquires ∧
      prevOf (s.acquires.insert i (Acquire.new n)) = prevOf s.acquires := by
    constructor <;> funext j <;> by_cases hj : j = i
    · subst hj
      simp [nextOf, hnone, Link.pointers, Acquire.new, Waiter.new, Pointers.new]
    · simp [nextOf, Store.get?_insert_of_ne _ _ hj]
    · subst hj
      simp [prevOf, hnone, Link.pointers, Acquire.new, Waiter.new, Pointers.new]
    · simp [prevOf, Store.get?_insert_of_ne _ _ hj]
  refine ⟨h.permits, h.closed, h.queue.congr hlinks.1 hlinks.2 fun j hj => ?_, ?_, h.woken⟩
  · exact Finset.mem_insert_of_mem (h.queue.live j hj)
  · show (s.acquires.insert i (Acquire.new n)).map Acquire.request = _
    rw [Store.map_insert, h.requests]
    rfl

/-! ### `Acquire::poll` -/

/-- Joining the wait list. -/
theorem Refines.pushFront {b : List (Addr × W)} (h : Refines s a b) (hi : i ∉ a.waiting)
    (hr : a.requests.get? i = some r) :
    ∃ s' : Inner P W, (s.onQueue fun l h => do
        let r ← l.pushFront h i
        pure ((), r)) = .ok ((), s') ∧
      Refines s' { a with waiting := a.waiting ++ [i] } b := by
  have hlive : i ∈ s.acquires.dom := h.dom_eq ▸ Store.mem_dom_of_get? hr
  obtain ⟨l', h', hpush, hrep, hframe⟩ :=
    pushFront_spec h.queue (fun hm => hi (List.mem_reverse.mp hm)) hlive
  refine ⟨{ s with waiters := { s.waiters with queue := l' }, acquires := h' }, ?_,
    h.permits, h.closed, ?_, ?_, h.woken⟩
  · rw [Inner.onQueue, hpush]
    rfl
  · rw [List.reverse_append]
    exact hrep
  · rw [← h.requests]
    exact hframe.payload _ Acquire.request fun _ _ => rfl

/-- What a poll clears from the counter goes back to it when nobody waits. -/
theorem Fair.Sound.release_cleared (ha : a.Sound) :
    ({ a with available := 0 } : Fair W).release a.available = a := by
  by_cases hq : a.waiting = []
  · rw [Fair.release_of_nil (a := { a with available := 0 }) hq, Nat.zero_add]
  · have h0 : a.available = 0 := ha.exhausted hq
    have hid : ({ a with available := 0 } : Fair W) = a := by rw [← h0]
    rw [hid, h0]
    exact Fair.release_zero ha

theorem Request.with_need_self {n : ℕ} (h : n = r.need) :
    ({ r with need := n } : Request W) = r := by
  subst h
  rfl

theorem Waiter.pointers_register [Waker W] (cx : W) (n : Waiter W) :
    (n.register cx).pointers = n.pointers := by
  unfold Waiter.register
  split <;> rfl

theorem Acquire.request_register [Waker W] (cx : W) (q : Acquire W) :
    ({ q with node := q.node.register cx } : Acquire W).request = q.request.register cx := by
  unfold Waiter.register Request.register Acquire.request
  split <;> rfl

/-- Setting the flag to the value it has. -/
theorem Refines.setQueued_self {b : List (Addr × W)} (h : Refines s a b)
    (hr : a.requests.get? i = some r) : Refines (s.setQueued i r.queued) a b := by
  have hs := h.setQueued i r.queued
  rwa [Store.modify_eq_self _ _ _ fun r' hr' => by
    obtain rfl := Option.some.inj (hr.symm.trans hr')
    rfl] at hs

section Poll

variable [Waker W] {cx : W}

/-- The start of the slow path: the counter is cleared, and what it held is handed to the node. -/
def Inner.cleared (s : Inner P W) (i : Addr) (n : ℕ) : Inner P W :=
  ({ s with permits := 0 } : Inner P W).updateNode i fun w => (w.assignPermits n).1

omit [Waker W] in
theorem Refines.cleared (h : Refines s a []) (hc : a.closed = false) (i : Addr) :
    Refines (s.cleared i a.available)
      { a with
        available := 0
        requests := a.requests.modify i
          fun r => { r with need := r.need - min r.need a.available } } [] := by
  have h₀ : Refines ({ s with permits := 0 } : Inner P W) { a with available := 0 } [] := by
    refine h.setPermits ?_
    rw [hc]
    rfl
  exact h₀.updateNode i _ _ (fun _ => rfl) fun _ => rfl

/-- **What `poll` computes**, in terms of the abstract request: an error when the semaphore is
closed, the permits when the counter covers a first poll, and otherwise the slow path. -/
theorem poll_eq (h : Refines s a []) (hr : a.requests.get? i = some r) (cx : W) :
    s.poll i cx =
      if a.closed = true then .ok (.ready (.error .closed), s)
      else if r.queued = false ∧ 2 * counted P r.size.toNat ≤ s.permits then
        .ok (.ready (.ok ()), ({ s with
          permits := P.sub s.permits (2 * counted P r.size.toNat) } : Inner P W).setQueued i false)
      else if r.need ≤ a.available then
        (s.cleared i a.available).addPermits (a.available - min r.need a.available) >>= fun s =>
          .ok (.ready (.ok ()), s.setQueued i false)
      else if r.queued = true then
        .ok (.pending,
          ((s.cleared i a.available).updateNode i (Waiter.register cx)).setQueued i true)
      else
        ((s.cleared i a.available).updateNode i (Waiter.register cx)).onQueue (fun l h => do
          let r ← l.pushFront h i
          pure ((), r)) >>= fun p => .ok (.pending, p.2.setQueued i true) := by
  obtain ⟨q, hq, hqr⟩ := h.deref hr
  have hstate : q.node.state = r.need := congrArg Request.need hqr
  have hsize : q.numPermits = r.size := congrArg Request.size hqr
  have hqd : q.queued = r.queued := congrArg Request.queued hqr
  have hand : s.permits &&& Inner.closed = a.closed.toNat := by
    rw [h.permits]
    exact packed_and_one _ _
  have hshift : s.permits >>> Inner.permitShift = a.available := h.availablePermits
  have hshl : P.shl q.numPermits.toNat Inner.permitShift = 2 * counted P r.size.toNat := by
    rw [hsize]
    exact shl_eq_counted P _
  have hfilled : ∀ n, (q.node.assignPermits n).2.2 = decide (r.need ≤ n) := fun n => by
    rw [Waiter.assignPermits, hstate, beq_eq_decide, decide_eq_decide]
    omega
  have hrest : ∀ n, (q.node.assignPermits n).2.1 = n - min r.need n := fun n => by
    rw [Waiter.assignPermits, hstate]
  rw [Inner.poll, hq, ok_bind, Inner.pollAcquire, hq, ok_bind, hshl, hqd]
  simp only [hand, hshift, hfilled, hrest]
  cases a.closed with
  | true => rfl
  | false =>
    cases r.queued with
    | true =>
      simp only [Bool.toNat_false, gt_iff_lt, Nat.lt_irrefl, if_false, Bool.true_eq_false,
        Bool.false_eq_true, and_false, false_and, decide_eq_true_eq, if_true]
      split_ifs
      · exact bind_assoc _ _ _
      · rfl
    | false =>
      simp only [Bool.toNat_false, gt_iff_lt, Nat.lt_irrefl, if_false, Bool.false_eq_true, and_true,
        true_and, ge_iff_le, decide_eq_true_eq]
      split_ifs
      · rfl
      · exact bind_assoc _ _ _
      · exact bind_assoc _ _ _

omit [Waker W] in
/-- The counter of an open semaphore. -/
theorem Refines.permits_of_open (h : Refines s a []) (hc : a.closed = false) :
    s.permits = 2 * a.available := by
  rw [h.permits, hc]
  rfl

/-- A first poll that the counter covers, as the code compares them. -/
theorem poll_granted (h : Refines s a []) (hr : a.requests.get? i = some r) (hc : a.closed = false)
    (hrq : r.queued = false) (hav : counted P a.available = a.available)
    (hcharge : counted P r.size.toNat ≤ a.available) (cx : W) :
    ∃ s', s.poll i cx = .ok (.ready (.ok ()), s') ∧
      Refines s' (a.take (counted P r.size.toNat)) [] := by
  have hbound := two_mul_counted_lt P a.available
  rw [hav] at hbound
  have hperm := h.permits_of_open hc
  have h₁ : Refines ({ s with
      permits := P.sub s.permits (2 * counted P r.size.toNat) } : Inner P W)
      (a.take (counted P r.size.toNat)) [] := by
    refine h.setPermits ?_
    rw [hc, hperm, P.sub_eq (by omega) (by omega)]
    show _ = 2 * (a.available - counted P r.size.toNat) + 0
    omega
  have h₂ := h₁.setQueued_self (i := i) (r := r) hr
  rw [hrq] at h₂
  rw [poll_eq h hr, if_neg (by simp [hc]), if_pos ⟨hrq, by omega⟩]
  exact ⟨_, rfl, h₂⟩

/-- A request that has been served is collected: nothing is missing, and what the counter held goes
back to it. -/
theorem poll_collected (h : Refines s a []) (ha : a.Sound) (hr : a.requests.get? i = some r)
    (hc : a.closed = false) (hrq : r.queued = true) (hn : r.need = 0)
    (hav : counted P a.available = a.available) (cx : W) :
    (∃ s', s.poll i cx = .ok (.ready (.ok ()), s') ∧ Refines s' (a.collect i) []) ∨
      Inner.maxPermits P < a.available ∧ ∃ u, s.poll i cx = .error u := by
  have h₁ := h.cleared hc i
  rw [Store.modify_eq_self _ _ _ fun r' hr' => by
    obtain rfl := Option.some.inj (hr.symm.trans hr')
    exact Request.with_need_self (by omega)] at h₁
  rw [poll_eq h hr, if_neg (by simp [hc]), if_neg (by simp [hrq]), if_pos (by omega),
    show a.available - min r.need a.available = a.available by omega]
  rcases addPermits_cases h₁ ⟨ha.nodup, ha.servable.live⟩ (Nat.zero_mod _) a.available with
    ⟨-, s₂, hadd, h₂⟩ | ⟨hlt, u, -, hadd, -⟩
  · have hself : a.wrap P = a := by rw [Fair.wrap, hav]
    rw [ha.release_cleared, hself] at h₂
    refine Or.inl ?_
    rw [hadd, ok_bind]
    exact ⟨_, rfl, h₂.setQueued i false⟩
  · rw [ha.release_cleared, Nat.zero_add] at hlt
    refine Or.inr ⟨hlt, u, ?_⟩
    rw [hadd]
    rfl

/-- A request that waits goes on waiting: the counter is empty while somebody waits. -/
theorem poll_waiting (h : Refines s a []) (ha : a.Sound) (hr : a.requests.get? i = some r)
    (hc : a.closed = false) (hrq : r.queued = true) (hn : 0 < r.need) (cx : W) :
    ∃ s', s.poll i cx = .ok (.pending, s') ∧ Refines s' (a.reregister i cx) [] := by
  have hmem : i ∈ a.waiting := (ha.mem_waiting i).mpr ⟨hc, r, hr, hrq, hn⟩
  have h0 : a.available = 0 := ha.exhausted (List.ne_nil_of_mem hmem)
  have hid : ({ a with available := 0 } : Fair W) = a := by rw [← h0]
  have h₁ := h.cleared hc i
  rw [Store.modify_eq_self _ _ _ fun r' _ => Request.with_need_self (by omega), hid] at h₁
  have h₂ := h₁.updateNode i (Waiter.register cx) (Request.register cx)
    (Waiter.pointers_register cx) (Acquire.request_register cx)
  have hr₂ : (a.reregister i cx).requests.get? i = some (r.register cx) := by
    simp [Fair.reregister, hr]
  have h₃ := Refines.setQueued_self h₂ hr₂
  rw [Request.queued_register, hrq] at h₃
  rw [poll_eq h hr, if_neg (by simp [hc]), if_neg (by simp [hrq]), if_neg (by omega), if_pos hrq]
  exact ⟨_, rfl, h₃⟩

/-- A newcomer gets what the counter holds, and stays short of its request. -/
theorem poll_enqueued (h : Refines s a []) (ha : a.Sound) (hr : a.requests.get? i = some r)
    (hc : a.closed = false) (hrq : r.queued = false) (hneed : r.need = r.size.toNat)
    (hcharge : a.available < counted P r.size.toNat) (cx : W) :
    ∃ s', s.poll i cx = .ok (.pending, s') ∧ Refines s' (a.enqueue i cx) [] := by
  have hle : counted P r.size.toNat ≤ r.size.toNat := Nat.mod_le _ _
  have hperm := h.permits_of_open hc
  have hi : i ∉ a.waiting := ha.not_mem_of_not_queued hr hrq
  have h₁ := h.cleared hc i
  have h₂ := h₁.updateNode i (Waiter.register cx) (Request.register cx)
    (Waiter.pointers_register cx) (Acquire.request_register cx)
  obtain ⟨s₃, hpush, h₃⟩ := h₂.pushFront (i := i) hi (by simp [hr]; rfl)
  have h₄ := h₃.setQueued i true
  rw [poll_eq h hr, if_neg (by simp [hc]), if_neg (by omega), if_neg (by omega),
    if_neg (by simp [hrq]), hpush, ok_bind]
  refine ⟨_, rfl, h₄.permits, h₄.closed, h₄.queue, h₄.requests.trans ?_, h₄.woken⟩
  refine Store.ext_get? fun j => ?_
  by_cases hj : j = i
  · subst hj
    have hmin : min r.need a.available = a.available := Nat.min_eq_right (by omega)
    simp only [Fair.enqueue, Store.get?_modify_self, hr, Option.map_some, hmin]
    exact congrArg some (Request.register_with_queued cx _ true)
  · simp [Fair.enqueue, Store.get?_modify, hj]

/-- A first poll that slips through: the shift has dropped the high bit of the request, and the
counter holds the rest of it. -/
structure Slips (P : PointerWidth) (a : Fair W) (r : Request W) : Prop where
  opened : a.closed = false
  first : r.queued = false
  charge_le : counted P r.size.toNat ≤ a.available
  lt_size : a.available < r.size.toNat

/-- **`poll`**, whatever the size of the request and of the counter: it does what the abstract poll
does, unless the request slips through, or the counter that it gives back exceeds the maximum. -/
theorem poll_cases (h : Refines s a []) (ha : a.Sound) (hr : a.requests.get? i = some r)
    (hnew : r.queued = false → r.need = r.size.toNat)
    (hav : counted P a.available = a.available) (cx : W) :
    (Slips P a r ∧ ∃ s', s.poll i cx = .ok (.ready (.ok ()), s') ∧
      Refines s' (a.take (counted P r.size.toNat)) []) ∨
    (¬ Slips P a r ∧ ∃ s', s.poll i cx = .ok ((a.poll i cx).1, s') ∧
      Refines s' (a.poll i cx).2 []) ∨
    (a.closed = false ∧ r.queued = true ∧ r.need = 0 ∧ Inner.maxPermits P < a.available ∧
      ∃ u, s.poll i cx = .error u) := by
  by_cases hslips : Slips P a r
  · exact Or.inl ⟨hslips, poll_granted h hr hslips.opened hslips.first hav hslips.charge_le cx⟩
  refine Or.inr ?_
  have hp := Fair.polled cx hr
  generalize a.poll i cx = p at hp
  cases hp with
  | closed hc =>
    refine Or.inl ⟨hslips, ?_⟩
    rw [poll_eq h hr, if_pos hc]
    exact ⟨s, rfl, h⟩
  | taken hc hrq hle =>
    have hbound := two_mul_counted_lt P a.available
    have hcharge : counted P r.size.toNat = r.size.toNat := counted_of_lt (by omega)
    have hgrant := poll_granted h hr hc hrq hav (hcharge.trans_le hle) cx
    rw [hcharge] at hgrant
    exact Or.inl ⟨hslips, hgrant⟩
  | collected hc hrq hn =>
    rcases poll_collected h ha hr hc hrq hn hav cx with hcollected | ⟨hlt, hpanics⟩
    · exact Or.inl ⟨hslips, hcollected⟩
    · exact Or.inr ⟨hc, hrq, hn, hlt, hpanics⟩
  | waiting hc hrq hn => exact Or.inl ⟨hslips, poll_waiting h ha hr hc hrq hn cx⟩
  | enqueued hc hrq hlt =>
    have hcharge : a.available < counted P r.size.toNat := by
      by_contra hle
      exact hslips ⟨hc, hrq, Nat.not_lt.mp hle, hlt⟩
    exact Or.inl ⟨hslips, poll_enqueued h ha hr hc hrq (hnew hrq) hcharge cx⟩

/-- **`poll`** does what the abstract poll does, and never fails. -/
theorem poll_spec (h : Refines s a []) (ha : a.Sound) (hr : a.requests.get? i = some r)
    (hnew : r.queued = false → r.need = r.size.toNat) (hfit : 2 * r.size.toNat < 2 ^ P.bits)
    (hmax : a.available ≤ Inner.maxPermits P) (cx : W) :
    ∃ s', s.poll i cx = .ok ((a.poll i cx).1, s') ∧ Refines s' (a.poll i cx).2 [] := by
  have hbound := two_mul_maxPermits P
  rcases poll_cases h ha hr hnew (counted_of_lt (by omega)) cx with
    ⟨hslips, -⟩ | ⟨-, hok⟩ | ⟨-, -, -, hlt, -⟩
  · have hle := hslips.charge_le
    have hlt := hslips.lt_size
    rw [counted_of_lt hfit] at hle
    omega
  · exact hok
  · omega

end Poll

/-! ### `Acquire::drop` -/

/-- The hand-out does not look at a request that is not in the queue. -/
theorem Fair.handOut_erase {n : ℕ} {q : List Addr} (hi : i ∉ q) :
    ({ handOut n q a with requests := (handOut n q a).requests.erase i } : Fair W)
      = handOut n q { a with requests := a.requests.erase i } := by
  induction q generalizing a n with
  | nil => rfl
  | cons j q ih =>
    obtain ⟨hji, hq⟩ := not_or.mp (mt List.mem_cons.mpr hi)
    have hget : (a.requests.erase i).get? j = a.requests.get? j :=
      Store.get?_erase_of_ne _ (Ne.symm hji)
    have hneed : ({ a with requests := a.requests.erase i } : Fair W).need j = a.need j := by
      simp only [need, hget]
    have hcomm : ∀ f : Request W → Request W,
        (a.requests.modify j f).erase i = (a.requests.erase i).modify j f := fun f =>
      Store.ext_get? fun k => by
        by_cases hk : k = i
        · subst hk
          simp [Store.get?_modify]
        · simp [Store.get?_modify, Store.get?_erase, hk]
    rw [handOut, handOut, hneed]
    by_cases hn : a.need j ≤ n
    · rw [if_pos hn, if_pos hn, ih hq]
      simp only [wakeUp, waker, hcomm, hget]
    · rw [if_neg hn, if_neg hn]
      simp only [topUp, hcomm]

/-- Freeing a future that is not in the wait list. -/
theorem Refines.free {b : List (Addr × W)} (h : Refines s a b) (hi : i ∉ a.waiting) :
    Refines (s.free i) { a with requests := a.requests.erase i } b := by
  have hout : ∀ x ∉ a.waiting.reverse,
      nextOf s.acquires x = none ∧ prevOf s.acquires x = none := fun x hx =>
    ⟨h.queue.linked.next_outside x hx, h.queue.linked.prev_outside x hx⟩
  have hi' : i ∉ a.waiting.reverse := fun hm => hi (List.mem_reverse.mp hm)
  have hlinks : nextOf (s.acquires.erase i) = nextOf s.acquires ∧
      prevOf (s.acquires.erase i) = prevOf s.acquires := by
    constructor <;> funext j <;> by_cases hj : j = i
    · subst hj
      rw [(hout j hi').1]
      simp [nextOf]
    · simp [nextOf, Store.get?_erase_of_ne _ hj]
    · subst hj
      rw [(hout j hi').2]
      simp [prevOf]
    · simp [prevOf, Store.get?_erase_of_ne _ hj]
  refine ⟨h.permits, h.closed, h.queue.congr hlinks.1 hlinks.2 fun j hj => ?_, ?_, h.woken⟩
  · refine Finset.mem_erase.mpr ⟨?_, h.queue.live j hj⟩
    rintro rfl
    exact hi' hj
  · show (s.acquires.erase i).map Acquire.request = _
    rw [Store.map_erase, h.requests]

/-- Removing a live future from the wait list, whether it is there or not. -/
theorem Refines.remove {b : List (Addr × W)} (h : Refines s a b)
    (hr : a.requests.get? i = some r) :
    ∃ (x : Option Addr) (s' : Inner P W),
      s.onQueue (fun l h => l.remove h i) = .ok (x, s') ∧
      Refines s' { a with waiting := a.waiting.erase i } b := by
  by_cases hi : i ∈ a.waiting
  · obtain ⟨u, v, huv⟩ := List.append_of_mem hi
    have hnd : (u ++ i :: v).Nodup := by
      rw [← huv]
      exact List.nodup_reverse.mp h.queue.nodup
    have hiu : i ∉ u := fun hm => (List.nodup_append.mp hnd).2.2 i hm i (List.mem_cons_self ..) rfl
    have hrep : s.waiters.queue.Represents s.acquires (v.reverse ++ i :: u.reverse) := by
      simpa [huv] using h.queue
    obtain ⟨l', h', hrem, hrep', hframe⟩ := remove_spec hrep
    refine ⟨some i, { s with waiters := { s.waiters with queue := l' }, acquires := h' }, ?_,
      h.permits, h.closed, ?_, ?_, h.woken⟩
    · rw [Inner.onQueue, hrem]
    · have herase : (a.waiting.erase i).reverse = v.reverse ++ u.reverse := by
        rw [huv, List.erase_append_right _ hiu, List.erase_cons_head, List.reverse_append]
      rw [herase]
      exact hrep'
    · rw [← h.requests]
      exact hframe.payload _ Acquire.request fun _ _ => rfl
  · have hlive : i ∈ s.acquires.dom := h.dom_eq ▸ Store.mem_dom_of_get? hr
    have hrem := remove_outside h.queue (fun hm => hi (List.mem_reverse.mp hm)) hlive
    refine ⟨none, s, ?_, ?_⟩
    · rw [Inner.onQueue, hrem]
    · rwa [List.erase_of_not_mem hi]

/-- What `Acquire::drop` computes for the permits that a request has received. -/
def Request.acquiredPermits (P : PointerWidth) (r : Request W) : ℕ :=
  if r.queued then P.sub r.size.toNat r.need else 0

theorem Fair.Sound.acquiredPermits_eq (ha : a.Sound) (hr : a.requests.get? i = some r)
    (hfit : r.size.toNat < 2 ^ P.bits) : r.acquiredPermits P = r.held := by
  rw [Request.acquiredPermits, Request.held, P.sub_eq (ha.need_le i r hr) hfit]

/-- The drop of a future that does not wait frees its memory. -/
theorem dropAcquire_idle (h : Refines s a []) (ha : a.Sound) (hr : a.requests.get? i = some r)
    (hrq : r.queued = false) :
    s.dropAcquire i = .ok (s.free i) ∧
      Refines (s.free i) { a with requests := a.requests.erase i } [] := by
  obtain ⟨q, hq, hqr⟩ := h.deref hr
  have hqd : q.queued = r.queued := congrArg Request.queued hqr
  refine ⟨?_, h.free (ha.not_mem_of_not_queued hr hrq)⟩
  rw [Inner.dropAcquire, hq, ok_bind, hqd, hrq]
  rfl

/-- The drop of a queued future unlinks it and hands on what it holds, before its memory is freed. -/
theorem dropAcquire_queued (h : Refines s a []) (hr : a.requests.get? i = some r)
    (hrq : r.queued = true) :
    ∃ s₁, s.dropAcquire i =
        ((if r.acquiredPermits P > 0 then s₁.addPermits (r.acquiredPermits P) else .ok s₁) >>=
          fun s => .ok (s.free i)) ∧
      Refines s₁ { a with waiting := a.waiting.erase i } [] := by
  obtain ⟨q, hq, hqr⟩ := h.deref hr
  have hqd : q.queued = r.queued := congrArg Request.queued hqr
  obtain ⟨x, s₁, hrem, h₁⟩ := h.remove hr
  obtain ⟨q₁, hq₁, hq₁r⟩ := h₁.deref (i := i) (r := r) hr
  have hstate : q₁.node.state = r.need := congrArg Request.need hq₁r
  have hsize : q₁.numPermits = r.size := congrArg Request.size hq₁r
  have hsub : P.sub q₁.numPermits.toNat q₁.node.state = r.acquiredPermits P := by
    rw [hstate, hsize, Request.acquiredPermits, if_pos hrq]
  refine ⟨s₁, ?_, h₁⟩
  rw [Inner.dropAcquire, hq, ok_bind, hqd, hrq, if_pos rfl, hrem, ok_bind]
  simp only
  rw [hq₁, ok_bind]
  simp only [hsub]
  split_ifs <;> rfl

/-- **`drop`**, whatever the size of the request: it removes the request and hands out the permits
that it computes, or panics when too many of them are left over. -/
theorem dropAcquire_cases (h : Refines s a []) (ha : a.Sound) (hr : a.requests.get? i = some r)
    (hav : counted P a.available = a.available) :
    (∃ s', s.dropAcquire i = .ok s' ∧
      Refines s' (((a.remove i).release (r.acquiredPermits P)).wrap P) []) ∨
    (a.available + Inner.maxPermits P <
        ((a.remove i).release (r.acquiredPermits P)).available ∧
      ∃ u, s.dropAcquire i = .error u) := by
  cases hrq : r.queued with
  | false =>
    have hi : i ∉ a.waiting := ha.not_mem_of_not_queued hr hrq
    have hrel : ((a.remove i).release (r.acquiredPermits P)).wrap P
        = { a with requests := a.requests.erase i } := by
      have hzero : r.acquiredPermits P = 0 := by simp [Request.acquiredPermits, hrq]
      rw [hzero, Fair.release_zero (ha.remove i), Fair.remove, List.erase_of_not_mem hi, Fair.wrap,
        hav]
    obtain ⟨hdrop, hfree⟩ := dropAcquire_idle h ha hr hrq
    exact Or.inl ⟨s.free i, hdrop, hrel ▸ hfree⟩
  | true =>
    obtain ⟨s₁, hdrop, h₁⟩ := dropAcquire_queued h hr hrq
    have hi : i ∉ a.waiting.erase i := ha.nodup.not_mem_erase
    have hsv : Servable ({ a with waiting := a.waiting.erase i } : Fair W) :=
      ⟨ha.nodup.erase i, fun j hj => ha.servable.live j (List.mem_of_mem_erase hj)⟩
    -- freeing before or after the hand-out makes no difference
    obtain ⟨b, hb⟩ : ∃ b, b = ({ a with waiting := a.waiting.erase i } : Fair W).release
        (r.acquiredPermits P) := ⟨_, rfl⟩
    have hcomm : ({ b with requests := b.requests.erase i } : Fair W) =
        (a.remove i).release (r.acquiredPermits P) := by
      rw [hb]
      exact Fair.handOut_erase hi
    have hib : i ∉ b.waiting := fun hm => hi ((Fair.handOut_suffix _ _ _).subset (hb ▸ hm))
    rw [hdrop, ← hcomm]
    split_ifs with hpos
    · -- what the future holds goes back
      rcases addPermits_cases h₁ hsv hav (r.acquiredPermits P) with
        ⟨-, s₂, hres, h₂⟩ | ⟨hlt, u, -, hres, -⟩
      · refine Or.inl ⟨s₂.free i, by rw [hres]; rfl, ?_⟩
        rw [← hb] at h₂
        exact Refines.free h₂ hib
      · rw [← hb] at hlt
        exact Or.inr ⟨hlt, u, by rw [hres]; rfl⟩
    · have h0 : r.acquiredPermits P = 0 := by omega
      rw [h0, Fair.release, hsv.handOut_zero] at hb
      refine Or.inl ⟨s₁.free i, rfl, ?_⟩
      have h₂ := Refines.free h₁ hi
      rw [hb, Fair.wrap, hav]
      exact h₂

/-- **`drop`** cancels the request. -/
theorem dropAcquire_spec (h : Refines s a []) (ha : a.Sound) (hr : a.requests.get? i = some r)
    (hfit : r.size.toNat < 2 ^ P.bits)
    (hmax : (a.cancel i).available ≤ Inner.maxPermits P) :
    ∃ s', s.dropAcquire i = .ok s' ∧ Refines s' (a.cancel i) [] := by
  have hbound := two_mul_maxPermits P
  have hcancel : (a.remove i).release (r.acquiredPermits P) = a.cancel i := by
    rw [ha.acquiredPermits_eq hr hfit, Fair.cancel, hr]
    rfl
  have hle : a.available ≤ (a.cancel i).available := Fair.available_le_release (a.remove i) _
  rcases dropAcquire_cases h ha hr (counted_of_lt (by omega)) with hok | ⟨hlt, -⟩
  · rwa [hcancel, Fair.wrap, counted_of_lt (by omega)] at hok
  · rw [hcancel] at hlt
    omega

end LocalSync.Semaphore
