/-
  Permits that come in in portions.

  The hand-out is additive (`Fair.release_release`): the next amount goes on
  where the last one stopped, in the middle of a request if need be.  So it makes
  no difference to the clients of a semaphore in which portions an amount is
  added: all answers to all later calls are the same
  (`portions_indistinguishable`), as long as the sum keeps within the maximum.

  What differs is the order of the wake-ups.  One `add_permits` wakes in batches
  of 32 wakers, the longest waits first, but within a batch the shortest wait
  comes first (`wakes_in_batches`).
-/
import LocalSync.Equiv.HandOut
import LocalSync.Equiv.Limit

namespace LocalSync.Semaphore

open Lib

variable {P : PointerWidth} {W : Type}

/-! ### The hand-out is additive -/

namespace Fair

variable {a : Fair W} {i : Addr} {m n : ℕ} {q : List Addr}

theorem need_topUp (a : Fair W) (i : Addr) (m : ℕ) : (a.topUp i m).need i = a.need i - m := by
  rw [need, need, topUp, Store.get?_modify_self]
  cases a.requests.get? i with
  | none => exact (Nat.zero_sub m).symm
  | some r => rfl

/-- What a request has received before it is served does not show afterwards. -/
theorem wakeUp_topUp (a : Fair W) (i : Addr) (m : ℕ) :
    (a.topUp i m).wakeUp i 0 = a.wakeUp i 0 := by
  have hwaker : (a.topUp i m).waker i = a.waker i := by
    rw [waker, waker, topUp, Store.get?_modify_self]
    cases a.requests.get? i <;> rfl
  have hrequests : (a.requests.modify i fun r => { r with need := r.need - m }).modify i
      ({ · with need := 0, waker := none }) =
        a.requests.modify i ({ · with need := 0, waker := none }) := by
    refine Store.ext_get? fun j => ?_
    by_cases hj : j = i
    · subst hj
      rw [Store.get?_modify_self, Store.get?_modify_self, Store.get?_modify_self, Option.map_map]
      rfl
    · rw [Store.get?_modify_of_ne _ _ hj, Store.get?_modify_of_ne _ _ hj,
        Store.get?_modify_of_ne _ _ hj]
  rw [wakeUp, wakeUp, hwaker]
  exact congrArg (fun requests => ({ a with
    waiting := a.waiting.tail
    requests
    woken := Function.update a.woken i (a.woken i ++ (a.waker i).toList) } : Fair W)) hrequests

theorem topUp_topUp (a : Fair W) (i : Addr) (m n : ℕ) :
    (a.topUp i m).topUp i n = a.topUp i (m + n) := by
  have hrequests : (a.requests.modify i fun r => { r with need := r.need - m }).modify i
      (fun r => { r with need := r.need - n }) =
        a.requests.modify i fun r => { r with need := r.need - (m + n) } := by
    refine Store.ext_get? fun j => ?_
    by_cases hj : j = i
    · subst hj
      rw [Store.get?_modify_self, Store.get?_modify_self, Store.get?_modify_self, Option.map_map]
      refine congrArg (fun f => Option.map f _) (funext fun r => ?_)
      exact congrArg (fun need => { r with need }) (Nat.sub_sub r.need m n)
    · rw [Store.get?_modify_of_ne _ _ hj, Store.get?_modify_of_ne _ _ hj,
        Store.get?_modify_of_ne _ _ hj]
  exact congrArg (fun requests => ({ a with requests } : Fair W)) hrequests

theorem release_handOut (hq : a.waiting = q) (m n : ℕ) :
    (handOut m q a).release n = handOut (m + n) q a := by
  induction q generalizing a m with
  | nil =>
    have hwaiting : (handOut m [] a).waiting = [] := hq
    rw [release_of_nil hwaiting]
    exact congrArg (fun available => ({ a with available } : Fair W)) (Nat.add_assoc _ _ _)
  | cons i q ih =>
    rw [handOut, handOut]
    by_cases hm : a.need i ≤ m
    · have hwaiting : (a.wakeUp i 0).waiting = q := congrArg List.tail hq
      rw [if_pos hm, if_pos (hm.trans (Nat.le_add_right m n)), ih hwaiting,
        Nat.sub_add_comm hm]
    · -- the second amount goes on with the request where the first one stopped
      have hwaiting : (a.topUp i m).waiting = i :: q := hq
      rw [if_neg hm, release, hwaiting, handOut, need_topUp]
      by_cases hn : a.need i ≤ m + n
      · rw [if_pos (by omega), if_pos hn, wakeUp_topUp]
        congr 1
        omega
      · rw [if_neg (by omega), if_neg hn, topUp_topUp]

/-- **The hand-out is additive.** -/
theorem release_release (a : Fair W) (m n : ℕ) : (a.release m).release n = a.release (m + n) :=
  release_handOut rfl m n

end Fair

/-! ### Nobody can tell the portions -/

namespace System

/-- **Two semaphores that no client can tell apart**: they differ in the list pointers, and in the
order of the wake-ups of different futures. -/
structure Alike (s t : System P W) : Prop where
  available : t.sem.inner.availablePermits = s.sem.inner.availablePermits
  isClosed : t.sem.inner.isClosed = s.sem.inner.isClosed
  waitList : ∀ q, t.sem.inner.WaitList q ↔ s.sem.inner.WaitList q
  futures : t.sem.inner.acquires.map Acquire.request = s.sem.inner.acquires.map Acquire.request
  /-- Each future has been woken by the same wakers, in the same order. -/
  woken : ∀ i, wakesOf i t.sem.inner.woken = wakesOf i s.sem.inner.woken
  history : t.sem.history = s.sem.history
  frame : t = { s with sem := t.sem }

variable [Waker W] {s t u : System P W} {z : Tracked P W} {a b : Fair W} {i : Addr} {n : ℕ}

/-- The system `s`, and another semaphore that stands for the same abstract one. -/
structure Twins (s : System P W) (z : Tracked P W) (a : Fair W) : Prop where
  inv : Inv s a
  models : z.Models a
  history : z.history = s.sem.history

theorem Twins.alike (h : Twins s z a) : Alike s { s with sem := z } := by
  have hs := h.inv.models.refines
  have hz := h.models.refines
  refine ⟨hz.availablePermits.trans hs.availablePermits.symm, hz.isClosed.trans hs.isClosed.symm,
    fun q => ⟨fun hq => ?_, fun hq => ?_⟩, hz.requests.trans hs.requests.symm, fun i => ?_,
    h.history, rfl⟩
  · obtain rfl := hq.unique hz.queue
    exact hs.queue
  · obtain rfl := hq.unique hs.queue
    exact hz.queue
  · rw [hz.wakesOf_eq, hs.wakesOf_eq]

theorem Twins.total_eq (h : Twins s z a) : ({ s with sem := z } : System P W).total = s.total := by
  rw [System.total_eq h.inv.models, System.total_eq (s := { s with sem := z }) h.models]

/-- The same futures are alive. -/
theorem Twins.isSome_iff (h : Twins s z a) (i : Addr) :
    (z.inner.acquires.get? i).isSome = (s.sem.inner.acquires.get? i).isSome := by
  have hget := (h.models.get?_eq i).symm.trans (h.inv.models.get?_eq i)
  have hsome := congrArg Option.isSome hget
  rwa [Option.isSome_map, Option.isSome_map] at hsome

theorem Twins.allowed (h : Twins s z a) {c : Action W} (hc : s.Allowed c) :
    ({ s with sem := z } : System P W).Allowed c := by
  cases c with
  | acquireMany i n =>
    have hnone : s.sem.inner.acquires.get? i = none := hc
    have hsome := h.isSome_iff i
    rw [hnone, Option.isSome_none, Option.isSome_eq_false_iff, Option.isNone_iff_eq_none] at hsome
    exact hsome
  | poll i cx => exact ⟨(h.isSome_iff i).trans hc.1, h.history ▸ hc.2⟩
  | dropAcquire i => exact (h.isSome_iff i).trans hc
  | _ => exact hc

theorem Twins.dropPermit (h : Twins s z a) {p : ℕ} {m : UInt32}
    (hp : s.permits.get? p = some m) :
    ∃ t y b, s.dropPermit p = .ok t ∧
      ({ s with sem := z } : System P W).dropPermit p = .ok { t with sem := y } ∧ Twins t y b := by
  have htotal := System.total_eq h.inv.models
  have hsum := Store.sum_eq_add_erase _ _ _ UInt32.toNat hp
  have hbound := h.inv.bound
  have hfit : a.inside + m.toNat ≤ Inner.maxPermits P := by omega
  obtain ⟨t, hres, ht, -⟩ := dropPermit_spec h.inv hp
  obtain ⟨x, hx, -, hhist⟩ := h.inv.models.release hfit
  obtain ⟨y, hy, hmodels, hhist'⟩ := h.models.release hfit
  obtain rfl := Except.ok.inj (hres.symm.trans (dropPermit_eq hp hx))
  exact ⟨_, y, _, hres, dropPermit_eq (s := { s with sem := z }) hp hy, ht, hmodels,
    hhist'.trans (h.history.trans hhist.symm)⟩

/-- A guard is emptied. -/
theorem Twins.empty (h : Twins s z a) {p : ℕ} {m : UInt32} (hp : s.permits.get? p = some m)
    (k : ℕ) :
    Twins { s with permits := s.permits.modify p fun _ => 0, forgotten := k } z a := by
  obtain ⟨t, ht⟩ : ∃ t : System P W, t =
      { s with permits := s.permits.modify p fun _ => 0, forgotten := k } := ⟨_, rfl⟩
  have hm : t.sem.Models a := by
    rw [ht]
    exact h.inv.models
  have hsum := Store.sum_eq_add_erase _ _ _ UInt32.toNat hp
  have hsum' := Store.sum_modify _ _ _ (fun _ => 0) UInt32.toNat hp
  have hle : t.total ≤ s.total := by
    rw [System.total_eq hm, System.total_eq h.inv.models, ht]
    have h0 : (0 : UInt32).toNat = 0 := rfl
    simp only
    omega
  rw [← ht]
  refine ⟨⟨hm, ?_, hle.trans h.inv.bound⟩, h.models, ?_⟩
  · rw [ht]
    exact h.inv.results
  · rw [ht]
    exact h.history

/-- **One call does the same to both.** -/
theorem Twins.exec_spec (hP : ∀ n : UInt32, n.toNat ≤ Inner.maxPermits P) (h : Twins s z a)
    {c : Action W} (hc : s.Allowed c) (hmax : s.total + c.amount ≤ Inner.maxPermits P) :
    ∃ o t y b, s.exec c = .ok (o, t) ∧
      ({ s with sem := z } : System P W).exec c = .ok (o, { t with sem := y }) ∧ Twins t y b := by
  have htotal := System.total_eq h.inv.models
  have hinside := h.inv.inside_le
  cases c with
  | addPermits n =>
    have hfit : a.inside + n ≤ Inner.maxPermits P := by
      have hmax' : s.total + n ≤ Inner.maxPermits P := hmax
      omega
    obtain ⟨t, hres, ht, -⟩ := addPermits_spec (n := n) h.inv hmax
    obtain ⟨x, hx, -, hhist⟩ := h.inv.models.release hfit
    obtain ⟨y, hy, hmodels, hhist'⟩ := h.models.release hfit
    obtain rfl := Except.ok.inj (hres.symm.trans (addPermits_eq hx))
    refine ⟨.unit, _, y, _, by rw [exec, hres]; rfl, ?_, ht, hmodels, ?_⟩
    · rw [exec, addPermits_eq (s := { s with sem := z }) hy]
      rfl
    · exact hhist'.trans (h.history.trans hhist.symm)
  | acquireMany i n =>
    obtain ⟨ht, -⟩ := acquireMany_spec hP h.inv hc n
    refine ⟨.unit, s.acquireMany i n, z.acquire i n, _, rfl, rfl, ht, ?_, ?_⟩
    · have hbound := two_mul_maxPermits P
      have hn := hP n
      have hnone : a.requests.get? i = none := by
        rw [h.inv.models.get?_eq, show s.sem.inner.acquires.get? i = none from hc]
        rfl
      exact h.models.acquire hnone (by omega)
    · exact congrArg (fun history => history.acquire i) h.history
  | poll i cx =>
    obtain ⟨r, hr⟩ := h.inv.exists_request hc.1
    obtain ⟨o, t, hres, ht, -⟩ := poll_spec h.inv hr hc.2 cx
    obtain ⟨x, hx, -, hhist⟩ := h.inv.models.poll hr hc.2 hinside cx
    obtain ⟨y, hy, hmodels, hhist'⟩ := h.models.poll hr (h.history ▸ hc.2) hinside cx
    rw [h.history, ← hhist] at hhist'
    have hs := poll_eq (h.inv.result hr) hx
    have hz := poll_eq (s := { s with sem := z }) (h.inv.result hr) hy
    rw [hs] at hres
    generalize a.poll i cx = pa at hs hz ht hmodels hres
    obtain ⟨(e | u) | _, b⟩ := pa
    all_goals
      obtain ⟨rfl, rfl⟩ := Prod.mk.inj (Except.ok.inj hres)
      exact ⟨_, _, y, b, by rw [exec, hs]; rfl, by rw [exec, hz]; rfl, ht, hmodels, hhist'⟩
  | dropAcquire i =>
    obtain ⟨r, hr⟩ := h.inv.exists_request hc
    obtain ⟨t, hres, ht, -⟩ := dropAcquire_spec h.inv hr
    obtain ⟨x, hx, -, hhist⟩ := h.inv.models.drop hr hinside
    obtain ⟨y, hy, hmodels, hhist'⟩ := h.models.drop hr hinside
    obtain rfl := Except.ok.inj (hres.symm.trans (dropAcquire_eq hx))
    refine ⟨.unit, _, y, _, by rw [exec, hres]; rfl, ?_, ht, hmodels, ?_⟩
    · rw [exec, dropAcquire_eq (s := { s with sem := z }) hy]
      rfl
    · exact hhist'.trans (h.history.trans hhist.symm)
  | tryAcquireMany n =>
    obtain ⟨o, t, hres, ht, -⟩ := tryAcquireMany_spec hP h.inv n
    obtain ⟨x, hx, -, hhist⟩ := h.inv.models.tryAcquire (hP n) hinside
    obtain ⟨y, hy, hmodels, hhist'⟩ := h.models.tryAcquire (hP n) hinside
    have hs := tryAcquireMany_eq hx
    have hz := tryAcquireMany_eq (s := { s with sem := z }) hy
    rw [hs] at hres
    have hhist'' := hhist'.trans (h.history.trans hhist.symm)
    generalize a.tryAcquire n = pa at hs hz ht hmodels hres
    obtain ⟨e | u, b⟩ := pa
    all_goals
      obtain ⟨rfl, rfl⟩ := Prod.mk.inj (Except.ok.inj hres)
      exact ⟨_, _, y, b, by rw [exec, hs]; rfl, by rw [exec, hz]; rfl, ht, hmodels, hhist''⟩
  | dropPermit p =>
    obtain ⟨m, hp⟩ := Option.isSome_iff_exists.mp hc
    obtain ⟨t, y, b, hs, hz, ht⟩ := h.dropPermit hp
    exact ⟨.unit, t, y, b, by rw [exec, hs]; rfl, by rw [exec, hz]; rfl, ht⟩
  | forget p =>
    obtain ⟨m, hp⟩ := Option.isSome_iff_exists.mp hc
    have hempty : (s.permits.modify p fun _ => 0).get? p = some 0 := by
      rw [Store.get?_modify_self, hp]
      rfl
    obtain ⟨t, y, b, hs, hz, ht⟩ := (h.empty hp _).dropPermit hempty
    exact ⟨.unit, t, y, b, by rw [exec, forget, hs]; rfl, by rw [exec, forget, hz]; rfl, ht⟩
  | close =>
    obtain ⟨t, hres, ht, -⟩ := close_spec h.inv
    obtain ⟨x, hx, -, hhist⟩ := h.inv.models.close
    obtain ⟨y, hy, hmodels, hhist'⟩ := h.models.close
    obtain rfl := Except.ok.inj (hres.symm.trans (close_eq hx))
    refine ⟨.unit, _, y, _, by rw [exec, hres]; rfl, ?_, ht, hmodels, ?_⟩
    · rw [exec, close_eq (s := { s with sem := z }) hy]
      rfl
    · exact hhist'.trans (h.history.trans hhist.symm)

/-- Adding amount after amount hands out their sum. -/
theorem addAll_spec (ns : List ℕ) (h : Inv s a)
    (hmax : s.total + ns.sum ≤ Inner.maxPermits P) :
    ∃ x, s.addAll ns = .ok { s with sem := x, added := s.added + ns.sum } ∧
      Inv { s with sem := x, added := s.added + ns.sum } (a.release ns.sum) ∧
      x.history = s.sem.history := by
  induction ns generalizing s a with
  | nil =>
    rw [List.sum_nil, Fair.release_zero h.models.sound]
    exact ⟨s.sem, rfl, ⟨h.models, h.results, h.bound⟩, rfl⟩
  | cons n ns ih =>
    rw [List.sum_cons] at hmax ⊢
    have htotal := System.total_eq h.models
    obtain ⟨t, hres, ht, -⟩ := addPermits_spec (n := n) h (by omega)
    obtain ⟨x, hx, -, hhist⟩ := h.models.release (n := n) (by omega)
    obtain rfl := Except.ok.inj (hres.symm.trans (addPermits_eq hx))
    have htotal' := System.total_eq ht.models
    rw [Fair.inside_release h.models.sound] at htotal'
    simp only at htotal'
    obtain ⟨y, hy, hinv, hhist'⟩ := ih ht (by rw [htotal']; omega)
    rw [Fair.release_release] at hinv
    simp only [Nat.add_assoc] at hy hinv
    refine ⟨y, ?_, hinv, hhist'.trans hhist⟩
    rw [addAll, List.foldlM_cons, hres, ok_bind]
    exact hy

/-- **Nobody can tell in which portions permits came in.** -/
theorem portions_indistinguishable (ns ms : List ℕ) {p : ℕ} {es : List (Action W × Output)}
    {s : System .w64 W} (hp : p ≤ Inner.maxPermits .w64)
    (hrun : Run BoundedStep (System.new .w64 W p) es s) (hsum : ns.sum = ms.sum)
    (hmax : s.total + ns.sum ≤ Inner.maxPermits .w64) :
    ∃ t u, s.addAll ns = .ok t ∧ s.addAll ms = .ok u ∧ Alike t u ∧
      ∀ fs t', Run BoundedStep t fs t' → ∃ u', Run BoundedStep u fs u' ∧ Alike t' u' := by
  obtain ⟨a, h⟩ := bounded_inv toNat_le_maxPermits hp hrun
  obtain ⟨x, hns, hx, hhist⟩ := addAll_spec ns h hmax
  obtain ⟨y, hms, hy, hhist'⟩ := addAll_spec ms h (hsum ▸ hmax)
  rw [← hsum] at hms hy
  have htwins : Twins { s with sem := x, added := s.added + ns.sum } y (a.release ns.sum) :=
    ⟨hx, hy.models, hhist'.trans hhist.symm⟩
  refine ⟨_, _, hns, hms, htwins.alike, fun fs t' hrun' => ?_⟩
  have key : ∃ u', Run BoundedStep { s with sem := y, added := s.added + ns.sum } fs u' ∧
      ∃ z b, u' = { t' with sem := z } ∧ Twins t' z b := by
    refine hrun'.simulate (R := fun t u => ∃ z b, u = { t with sem := z } ∧ Twins t z b) ?_
      ⟨y, _, rfl, htwins⟩
    rintro t ⟨c, o⟩ t' _ ⟨z, b, rfl, ht⟩ ⟨⟨hc, hres⟩, hmax'⟩
    obtain ⟨o', v, z', b', hs, hz, hv⟩ := ht.exec_spec toNat_le_maxPermits hc hmax'
    obtain ⟨rfl, rfl⟩ := Prod.mk.inj (Except.ok.inj (hres.symm.trans hs))
    refine ⟨{ t' with sem := z' }, ⟨⟨ht.allowed hc, hz⟩, ?_⟩, z', b', rfl, hv⟩
    rw [ht.total_eq]
    exact hmax'
  obtain ⟨_, hrun'', z, b, rfl, ht⟩ := key
  exact ⟨_, hrun'', ht.alike⟩

/-- A request for 3 permits waits: 5 permits come in at once, or in three portions. -/
theorem portions_indistinguishable_three : ∃ (es : List (Action ℕ × Output))
    (s t u : System .w64 ℕ), Run BoundedStep (System.new .w64 ℕ 0) es s ∧
      s.sem.inner.waiters.queue.tail = some 7 ∧ s.addAll [5] = .ok t ∧
      s.addAll [2, 0, 3] = .ok u ∧ Alike t u := by
  have hcheck : (replay System.boundedCall (System.new .w64 ℕ 0) [.acquireMany 7 3,
      .poll 7 1]).map (fun r => (r.2.total, r.2.sem.inner.waiters.queue.tail)) =
        some (0, some 7) := by decide +kernel
  obtain ⟨⟨es, s⟩, hres, hs⟩ := Option.map_eq_some_iff.mp hcheck
  obtain ⟨htotal, htail⟩ := Prod.mk.inj hs
  have hrun := run_of_replay boundedStep_of_boundedCall hres
  obtain ⟨t, u, ht, hu, halike, -⟩ := portions_indistinguishable [5] [2, 0, 3] (by decide)
    hrun rfl (by rw [show s.total = 0 from htotal]; decide)
  exact ⟨es, s, t, u, hrun, htail, ht, hu, halike⟩

end System

/-! ### The order of the wake-ups -/

/-- A list in batches of at most `n`, all full but the last one, each turned around. -/
inductive InBatches {α : Type*} (n : ℕ) : List α → List α → Prop
  | last {l : List α} : l.length ≤ n → InBatches n l l.reverse
  | full {l v w : List α} : l.length = n → InBatches n v w → InBatches n (l ++ v) (l.reverse ++ w)

section Wakes

variable {s t : Inner P W} {a : Fair W} {fuel rem : ℕ} {wakers : WakeList (Addr × W)}
  {isEmpty : Bool}

theorem woken_onQueue {α : Type} {r : α}
    {op : LinkedList → Store Addr (Acquire W) →
      Except Fault (α × LinkedList × Store Addr (Acquire W))}
    (h : s.onQueue op = .ok (r, t)) : t.woken = s.woken := by
  unfold Inner.onQueue at h
  split at h
  · obtain ⟨-, rfl⟩ := Prod.mk.inj (Except.ok.inj h)
    rfl
  · cases h

theorem woken_takeWaker {i : Addr} {w : Option W} (h : s.takeWaker i = .ok (w, t)) :
    t.woken = s.woken := by
  obtain ⟨q, -, h⟩ := bind_eq_ok.mp h
  obtain ⟨-, rfl⟩ := Prod.mk.inj (Except.ok.inj h)
  rfl

/-- The loop `'inner` collects wakers, and wakes nobody. -/
theorem woken_assignLoop {r : ℕ × WakeList (Addr × W) × Bool}
    (h : Inner.assignLoop fuel s rem wakers isEmpty = .ok (r, t)) : t.woken = s.woken := by
  induction fuel generalizing s rem wakers with
  | zero => cases h
  | succ fuel ih =>
    unfold Inner.assignLoop at h
    split_ifs at h
    · split at h
      · cases h
      · obtain ⟨-, rfl⟩ := Prod.mk.inj (Except.ok.inj h)
        rfl
      · simp only at h
        split_ifs at h
        · obtain ⟨-, rfl⟩ := Prod.mk.inj (Except.ok.inj h)
          rfl
        · obtain ⟨⟨waiter, s₁⟩, hpop, h⟩ := bind_eq_ok.mp h
          have hwoken : s₁.woken = s.woken := (woken_onQueue hpop).trans rfl
          cases waiter with
          | none => cases h
          | some waiter =>
            obtain ⟨⟨waker, s₂⟩, htake, h⟩ := bind_eq_ok.mp h
            have hwoken' := (woken_takeWaker htake).trans hwoken
            cases waker with
            | none => exact (ih h).trans hwoken'
            | some waker =>
              simp only at h
              split at h
              · exact (ih h).trans hwoken'
              · cases h
    · obtain ⟨-, rfl⟩ := Prod.mk.inj (Except.ok.inj h)
      rfl

/-- **The loop `while rem > 0`** wakes batch after batch. -/
theorem batchLoop_wakes (h : Refines s a []) (ha : Servable a) (hfuel : a.waiting.length < fuel)
    (hres : Inner.batchLoop (fuel + 1) s rem WakeList.new false = .ok t) :
    ∃ q log, q ++ (a.release rem).waiting = a.waiting ∧ t.woken = s.woken ++ log ∧
      InBatches numWakers q (log.map Prod.fst) := by
  induction fuel generalizing s a rem with
  | zero => omega
  | succ fuel ih =>
    rcases Nat.eq_zero_or_pos rem with rfl | hrem
    · rw [batchLoop_zero] at hres
      obtain rfl := Except.ok.inj hres
      rw [Fair.release, ha.handOut_zero]
      exact ⟨[], [], rfl, (List.append_nil _).symm, .last (Nat.zero_le _)⟩
    obtain ⟨s₁, a₁, rem₁, wakers₁, e, hloop, h₁, ha₁, -, hout, hbatch, hexit⟩ :=
      assignLoop_spec rem WakeList.new h ha (fun e he => by cases he)
        (Nat.lt_succ_of_le (h.length_waiting_le ha))
    have hrelease : a.release rem = a₁.release rem₁ := hout.symm
    have hsplit : wakers₁.inner.map Prod.fst ++ a₁.waiting = a.waiting := hbatch
    have hflush : Refines (s₁.wake wakers₁.wakeAll) a₁ [] := h₁.flush
    -- the batch is woken, the newest waiter first
    have hwoken : (s₁.wake wakers₁.wakeAll).woken = s.woken ++ wakers₁.inner.reverse := by
      rw [Inner.wake, woken_assignLoop hloop]
      rfl
    have hlength : (wakers₁.inner.map Prod.fst).length ≤ numWakers := by
      rw [List.length_map]
      exact wakers₁.length_le
    have hlast : InBatches numWakers (wakers₁.inner.map Prod.fst)
        (wakers₁.inner.reverse.map Prod.fst) := by
      rw [List.map_reverse]
      exact .last hlength
    rw [Inner.batchLoop, if_pos hrem, hloop, ok_bind] at hres
    simp only at hres
    rcases Nat.eq_zero_or_pos rem₁ with rfl | hrem₁
    · -- all permits are used up
      have hcond : ¬ (decide (0 > 0) && e) = true := by simp
      rw [if_neg hcond, batchLoop_zero] at hres
      obtain rfl := Except.ok.inj hres
      have hzero : a₁.release 0 = a₁ := ha₁.handOut_zero
      rw [hrelease, hzero]
      exact ⟨_, _, hsplit, hwoken, hlast⟩
    rcases hexit with ⟨rfl, hnil, -⟩ | ⟨rfl, hzero | hfull⟩
    · -- the queue is empty
      have hcond : (decide (rem₁ > 0) && true) = true := by simpa using hrem₁
      rw [if_pos hcond] at hres
      split_ifs at hres with hmax
      rw [batchLoop_zero] at hres
      obtain rfl := Except.ok.inj hres
      rw [hrelease, Fair.release_of_nil hnil, ← hsplit, hnil]
      exact ⟨_, _, rfl, hwoken, hlast⟩
    · omega
    · -- the batch is full, and another one follows
      have hlen : (wakers₁.inner.map Prod.fst).length = numWakers := by
        rw [List.length_map]
        exact Nat.le_antisymm wakers₁.length_le (Nat.not_lt.mp (of_decide_eq_false hfull))
      have hlt : a₁.waiting.length < a.waiting.length := by
        rw [← hsplit, List.length_append, hlen]
        exact Nat.lt_add_of_pos_left (Nat.zero_lt_succ _)
      rw [Bool.and_false, if_neg Bool.false_ne_true] at hres
      obtain ⟨q, log, hq, hlog, hin⟩ := ih hflush ha₁ (by omega) hres
      refine ⟨wakers₁.inner.map Prod.fst ++ q, wakers₁.inner.reverse ++ log, ?_, ?_, ?_⟩
      · rw [hrelease, List.append_assoc, hq, hsplit]
      · rw [hlog, hwoken, List.append_assoc]
      · rw [List.map_append, List.map_reverse]
        exact .full hlen hin

/-- The loop of `close` wakes one waiter after the other. -/
theorem closeLoop_wakes {q : List Addr} (h : Refines s a []) (hq : a.waiting = q)
    (hlive : ∀ i ∈ q, ∃ r w, a.requests.get? i = some r ∧ r.waker = some w) (hnd : q.Nodup)
    (hres : Inner.closeLoop fuel s = .ok t) :
    ∃ log, t.woken = s.woken ++ log ∧ log.map Prod.fst = q := by
  induction q generalizing s a fuel with
  | nil =>
    cases fuel with
    | zero => cases hres
    | succ fuel =>
      rw [Inner.closeLoop, h.popBack_nil hq, ok_bind] at hres
      obtain rfl := Except.ok.inj hres
      exact ⟨[], (List.append_nil _).symm, rfl⟩
  | cons i q ih =>
    cases fuel with
    | zero => cases hres
    | succ fuel =>
      obtain ⟨hi, hnd⟩ := List.nodup_cons.mp hnd
      obtain ⟨r, w, hr, hw⟩ := hlive i (List.mem_cons_self ..)
      obtain ⟨s₁, hpop, h₁⟩ := h.popBack hq
      obtain ⟨s₂, htake, h₂⟩ := h₁.takeWaker hr
      have hwoken : s₂.woken = s.woken := (woken_takeWaker htake).trans (woken_onQueue hpop)
      rw [Inner.closeLoop, hpop, ok_bind] at hres
      simp only at hres
      rw [htake, ok_bind, hw] at hres
      simp only at hres
      have h₃ := (h₂.push (i := i) (fun e he => by cases he) w).flush
      have hlive' : ∀ j ∈ q, ∃ r' w', (a.requests.modify i ({ · with waker := none })).get? j =
          some r' ∧ r'.waker = some w' := by
        intro j hj
        obtain ⟨r', w', hr', hw'⟩ := hlive j (List.mem_cons_of_mem _ hj)
        exact ⟨r', w', (Store.get?_modify_of_ne _ _ (ne_of_mem_of_not_mem hj hi)).trans hr', hw'⟩
      obtain ⟨log, hlog, hmap⟩ := ih h₃ rfl hlive' hnd hres
      refine ⟨(i, w) :: log, ?_, congrArg (List.cons i) hmap⟩
      rw [hlog, Inner.wake, hwoken, List.append_assoc]
      rfl

end Wakes

namespace System

variable [Waker W]

/-- **The order of the wake-ups**, in every state of every run. -/
theorem wakes_in_batches {p : ℕ} {es : List (Action W × Output)} {s : System P W}
    (hrun : Run Step (System.new P W p) es s) {q : List Addr} (hq : s.sem.inner.WaitList q) :
    (∀ n t, s.sem.inner.addPermits n = .ok t → ∃ u v log, q = u ++ v ∧ t.WaitList v ∧
      t.woken = s.sem.inner.woken ++ log ∧ InBatches numWakers u (log.map Prod.fst)) ∧
    ∀ t, s.sem.inner.close = .ok t →
      ∃ log, t.woken = s.sem.inner.woken ++ log ∧ log.map Prod.fst = q := by
  obtain ⟨a, h⟩ := run_follows hrun
  have hrefines := h.sem.refines
  have hsound := h.sem.sound
  obtain rfl := hq.unique hrefines.queue
  constructor
  · intro n t ht
    obtain ⟨u, log, hu, hlog, hin⟩ := batchLoop_wakes hrefines hsound.servable
      (Nat.lt_succ_of_le (hrefines.length_waiting_le hsound.servable)) ht
    refine ⟨u, (a.release n).waiting, log, hu.symm, ?_, hlog, hin⟩
    rcases Semaphore.addPermits_cases hrefines hsound.servable h.sem.counter n with
      ⟨-, t', ht', hrefines'⟩ | ⟨-, v, batch, hv, -⟩
    · obtain rfl := Except.ok.inj (ht.symm.trans ht')
      exact hrefines'.queue
    · rw [ht] at hv
      cases hv
  · intro t ht
    have hclosed : Refines
        ({ s.sem.inner with permits := s.sem.inner.permits ||| Inner.closed,
                            waiters := { s.sem.inner.waiters with closed := true } } : Inner P W)
        { a with closed := true } [] :=
      ⟨by rw [hrefines.permits]; exact packed_or_one _ _, rfl, hrefines.queue, hrefines.requests,
        hrefines.woken⟩
    have hlive : ∀ i ∈ a.waiting, ∃ r w, a.requests.get? i = some r ∧ r.waker = some w := by
      intro i hi
      obtain ⟨r, hr, -⟩ := hsound.exists_of_mem hi
      obtain ⟨w, hw⟩ := Option.isSome_iff_exists.mp (hsound.awake i hi)
      rw [Fair.waker_of_get? hr] at hw
      exact ⟨r, w, hr, hw⟩
    have hwakes := closeLoop_wakes hclosed rfl hlive hsound.nodup ht
    exact hwakes

/-- 33 requests wait.  When 33 permits come in, the 32nd request is woken first, and the 33rd last;
when the semaphore is closed, the oldest request is woken first. -/
theorem wakes_in_batches_two : ∃ (es : List (Action ℕ × Output)) (s : System .w64 ℕ)
    (q : List Addr) (t t' : Inner .w64 ℕ),
    Run Step (System.new .w64 ℕ 0) es s ∧ s.sem.inner.WaitList q ∧
      s.sem.inner.addPermits 33 = .ok t ∧ s.sem.inner.close = .ok t' ∧
      t.woken.map Prod.snd = (List.range 32).reverse ++ [32] ∧
      t'.woken.map Prod.snd = List.range 33 ∧
      (∃ u v log, q = u ++ v ∧ t.WaitList v ∧ t.woken = s.sem.inner.woken ++ log ∧
        InBatches numWakers u (log.map Prod.fst)) ∧
      ∃ log, t'.woken = s.sem.inner.woken ++ log ∧ log.map Prod.fst = q := by
  have hcheck : (replay System.call (System.new .w64 ℕ 0) ((List.range 33).flatMap fun k =>
      [.acquireMany (k + 7) 1, .poll (k + 7) k])).map (fun r =>
        ((r.2.sem.inner.addPermits 33).toOption.map fun t => t.woken.map Prod.snd,
          (r.2.sem.inner.close).toOption.map fun t => t.woken.map Prod.snd)) =
        some (some ((List.range 32).reverse ++ [32]), some (List.range 33)) := by decide +kernel
  obtain ⟨⟨es, s⟩, hres, hs⟩ := Option.map_eq_some_iff.mp hcheck
  obtain ⟨hadd, hclose⟩ := Prod.mk.inj hs
  obtain ⟨t, ht, hwoken⟩ := Option.map_eq_some_iff.mp hadd
  obtain ⟨t', ht', hwoken'⟩ := Option.map_eq_some_iff.mp hclose
  have hrun := run_of_replay step_of_call hres
  obtain ⟨a, h⟩ := run_follows hrun
  have hq : s.sem.inner.WaitList a.waiting := h.sem.refines.queue
  have hok := eq_ok_of_toOption ht
  have hok' := eq_ok_of_toOption ht'
  obtain ⟨hbatches, holdest⟩ := wakes_in_batches hrun hq
  exact ⟨es, s, a.waiting, t, t', hrun, hq, hok, hok', hwoken, hwoken', hbatches 33 t hok,
    holdest t' hok'⟩

end System

end LocalSync.Semaphore
