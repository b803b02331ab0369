/-
  The hand-out of `add_permits` in one pass.

  The code hands permits out in batches of at most 32 wakers, with two loops
  that leave for different reasons.  `Equiv.Semaphore` has shown that this is
  the recursion `Fair.handOut`, whatever the batches; here the recursion is
  solved.  The requests at the front of the queue whose needs fit into the
  amount are served, the next one takes what is left, and the counter takes it
  when there is none (`Fair.HandsOut`).

  `System.addPermits_greedy` says this of the memory of the semaphore, in every
  reachable state.
-/
import LocalSync.Equiv.SemaphoreRuns
import LocalSync.Equiv.Wrapping
import Mathlib.Algebra.GroupWithZero.Nat
import Mathlib.Order.Bounds.Basic

namespace LocalSync.Semaphore

open Lib LinkedList

variable {P : PointerWidth} {W : Type}

/-! ### The abstract semaphore -/

namespace Fair

variable {a b : Fair W} {i j : Addr} {n : ℕ} {q u v : List Addr}

/-- What the requests `q` need together. -/
def needs (a : Fair W) (q : List Addr) : ℕ := (q.map a.need).sum

/-- **The hand-out of `n` permits**, when the requests `u` at the front of the queue are served and
the requests `v` behind them are not. -/
structure HandsOut (a b : Fair W) (n : ℕ) (u v : List Addr) : Prop where
  waiting : b.waiting = v
  /-- What `u` needs is there. -/
  needs_le : a.needs u ≤ n
  /-- What the next request needs is not. -/
  lt_need : ∀ i, v.head? = some i → n < a.needs u + a.need i
  served : ∀ i ∈ u, b.requests.get? i =
    (a.requests.get? i).map ({ · with need := 0, waker := none })
  /-- The next request takes what is left. -/
  next : ∀ i, v.head? = some i → b.requests.get? i =
    (a.requests.get? i).map fun r => { r with need := r.need - (n - a.needs u) }
  /-- Nobody else notices. -/
  others : ∀ i ∉ u, v.head? ≠ some i → b.requests.get? i = a.requests.get? i
  woken : ∀ i ∈ u, b.woken i = a.woken i ++ (a.waker i).toList
  quiet : ∀ i ∉ u, b.woken i = a.woken i
  /-- The counter takes what is left when everybody is served. -/
  available_of_nil : v = [] → b.available = a.available + (n - a.needs u)
  available_of_ne_nil : v ≠ [] → b.available = a.available

/-- One more request at the front of the queue. -/
theorem HandsOut.cons (h : HandsOut (a.wakeUp i 0) b (n - a.need i) u v) (hi : i ∉ u ++ v)
    (hn : a.need i ≤ n) : HandsOut a b n (i :: u) v := by
  have hne : ∀ j ∈ u ++ v, j ≠ i := fun j hj => ne_of_mem_of_not_mem hj hi
  have hget : ∀ j, j ≠ i → (a.wakeUp i 0).requests.get? j = a.requests.get? j := fun j hj =>
    Store.get?_modify_of_ne _ _ hj
  have hneed : ∀ j, j ≠ i → (a.wakeUp i 0).need j = a.need j := fun j hj => by
    rw [need, need, hget j hj]
  have hneeds : (a.wakeUp i 0).needs u = a.needs u := by
    rw [needs, needs]
    exact congrArg List.sum (List.map_congr_left fun j hj =>
      hneed j (hne j (List.mem_append_left v hj)))
  have hsum : a.needs (i :: u) = a.need i + a.needs u := by
    rw [needs, List.map_cons, List.sum_cons, needs]
  have hiu : i ∉ u := fun hm => hi (List.mem_append_left v hm)
  have hhead : ∀ j, v.head? = some j → j ≠ i := fun j hj =>
    hne j (List.mem_append_right u (List.mem_of_head? hj))
  have hle := h.needs_le
  rw [hneeds] at hle
  have hrest : n - a.needs (i :: u) = n - a.need i - (a.wakeUp i 0).needs u := by
    rw [hsum, hneeds, Nat.sub_sub]
  constructor
  · exact h.waiting
  · omega
  · intro j hj
    have hlt := h.lt_need j hj
    rw [hneeds, hneed j (hhead j hj)] at hlt
    omega
  · intro j hj
    rcases List.mem_cons.mp hj with rfl | hj
    · rw [h.others j hiu fun hv => hhead j hv rfl]
      exact Store.get?_modify_self _ _ _
    · rw [h.served j hj, hget j (hne j (List.mem_append_left v hj))]
  · intro j hj
    rw [h.next j hj, hget j (hhead j hj), hrest]
  · intro j hj hv
    rw [List.mem_cons, not_or] at hj
    rw [h.others j hj.2 hv, hget j hj.1]
  · intro j hj
    rcases List.mem_cons.mp hj with rfl | hj
    · rw [h.quiet j hiu]
      exact Function.update_self _ _ _
    · have hji := hne j (List.mem_append_left v hj)
      rw [h.woken j hj, waker, hget j hji, waker]
      exact congrArg (· ++ _) (Function.update_of_ne hji _ _)
  · intro j hj
    rw [List.mem_cons, not_or] at hj
    rw [h.quiet j hj.2]
    exact Function.update_of_ne hj.1 _ _
  · intro hv
    rw [h.available_of_nil hv, hrest]
    rfl
  · exact h.available_of_ne_nil

/-- **The hand-out in one pass.** -/
theorem handOut_handsOut (hq : a.waiting = q) (hnd : q.Nodup) (n : ℕ) :
    ∃ u v, q = u ++ v ∧ HandsOut a (handOut n q a) n u v := by
  induction q generalizing a n with
  | nil =>
    refine ⟨[], [], rfl, hq, Nat.zero_le n, ?_, ?_, ?_, fun _ _ _ => rfl, ?_, fun _ _ => rfl,
      fun _ => rfl, fun h => absurd rfl h⟩ <;> intro i hi <;> cases hi
  | cons i q ih =>
    obtain ⟨hi, hnd⟩ := List.nodup_cons.mp hnd
    rw [handOut]
    by_cases hn : a.need i ≤ n
    · rw [if_pos hn]
      have hw : (a.wakeUp i 0).waiting = q := congrArg List.tail hq
      obtain ⟨u, v, rfl, h⟩ := ih hw hnd (n - a.need i)
      exact ⟨i :: u, v, rfl, h.cons hi hn⟩
    · rw [if_neg hn]
      refine ⟨[], i :: q, rfl, hq, Nat.zero_le n, ?_, ?_, ?_, ?_, ?_, fun _ _ => rfl,
        fun h => absurd h (List.cons_ne_nil i q), fun _ => rfl⟩
      · intro j hj
        obtain rfl := Option.some.inj hj
        rw [needs, List.map_nil, List.sum_nil, Nat.zero_add]
        exact Nat.lt_of_not_le hn
      · exact fun j hj => absurd hj List.not_mem_nil
      · intro j hj
        obtain rfl := Option.some.inj hj
        exact Store.get?_modify_self _ _ _
      · intro j _ hj
        exact Store.get?_modify_of_ne _ _ fun hji => hj (congrArg some hji.symm)
      · exact fun j hj => absurd hj List.not_mem_nil

end Fair

/-! ### The semaphore in memory -/

namespace Inner

/-- What the future at `i` still needs. -/
def need (s : Inner P W) (i : Addr) : ℕ := (s.acquires.get? i).elim 0 fun q => q.node.state

/-- The waker in the node of the future at `i`. -/
def waker (s : Inner P W) (i : Addr) : Option W := (s.acquires.get? i).bind fun q => q.node.waker

/-- What the futures `q` need together. -/
def needs (s : Inner P W) (q : List Addr) : ℕ := (q.map s.need).sum

/-- **`add_permits` has handed out `n` permits**: it has served the waiters `u`, and left the
waiters `v` behind them in the list. -/
structure HandsOut (s t : Inner P W) (n : ℕ) (u v : List Addr) : Prop where
  waitList : t.WaitList v
  served : ∀ i ∈ u, t.need i = 0
  /-- Whoever is served is woken once, with the waker of its node. -/
  woken : ∀ i ∈ u, ∃ w, s.waker i = some w ∧ wakesOf i t.woken = wakesOf i s.woken ++ [w]
  /-- Nobody else is woken. -/
  quiet : ∀ i ∉ u, wakesOf i t.woken = wakesOf i s.woken
  /-- The next waiter takes what is left. -/
  next : ∀ i, v.head? = some i → (t.acquires.get? i).map Acquire.request =
    (s.acquires.get? i).map fun q => { q.request with need := s.need i - (n - s.needs u) }
  /-- All other futures stay as they are. -/
  others : ∀ i ∉ u, v.head? ≠ some i →
    (t.acquires.get? i).map Acquire.request = (s.acquires.get? i).map Acquire.request
  /-- The counter takes what is left when the list is empty. -/
  available_of_nil : v = [] → t.availablePermits = s.availablePermits + (n - s.needs u)
  available_of_ne_nil : v ≠ [] → t.availablePermits = s.availablePermits

/-- **`add_permits(n)` is the greedy hand-out.**  The list holds the waiters `q`, oldest first, and
`k` is the largest number of them whose needs fit into `n`.  The call panics when these are all and
too much is left over; otherwise it returns, and has handed the permits out. -/
def Greedy (s : Inner P W) (n : ℕ) : Prop :=
  ∃ q, s.WaitList q ∧ ∃ k, IsGreatest { k | k ≤ q.length ∧ s.needs (q.take k) ≤ n } k ∧
    if k = q.length ∧ maxPermits P < n - s.needs q then
      ∃ u, s.addPermits n = .error u ∧
        u.fault = .panic s!"cannot add more than MAX_PERMITS permits ({maxPermits P})"
    else ∃ t, s.addPermits n = .ok t ∧ s.HandsOut t n (q.take k) (q.drop k)

end Inner

section Refines

variable {s t : Inner P W} {a b : Fair W} {i : Addr} {n : ℕ} {q u v : List Addr}

theorem Refines.get?_requests {batch : List (Addr × W)} (h : Refines s a batch) (i : Addr) :
    a.requests.get? i = (s.acquires.get? i).map Acquire.request := by
  rw [← h.requests, Store.get?_map]

theorem Refines.need_eq {batch : List (Addr × W)} (h : Refines s a batch) (i : Addr) :
    a.need i = s.need i := by
  rw [Fair.need, h.get?_requests, Inner.need]
  cases s.acquires.get? i <;> rfl

theorem Refines.waker_eq {batch : List (Addr × W)} (h : Refines s a batch) (i : Addr) :
    a.waker i = s.waker i := by
  rw [Fair.waker, h.get?_requests, Inner.waker]
  cases s.acquires.get? i <;> rfl

theorem Refines.needs_eq {batch : List (Addr × W)} (h : Refines s a batch) (q : List Addr) :
    a.needs q = s.needs q := by
  rw [Fair.needs, Inner.needs]
  exact congrArg List.sum (List.map_congr_left fun i _ => h.need_eq i)

theorem Refines.wakesOf_eq (h : Refines s a []) (i : Addr) : wakesOf i s.woken = a.woken i := by
  have hi := h.woken i
  rwa [List.reverse_nil, List.append_nil] at hi

/-- The hand-out in memory. -/
theorem Refines.handsOut (h : Refines s a []) (h' : Refines t b []) (ha : a.Sound)
    (hq : a.waiting = u ++ v) (hout : Fair.HandsOut a b n u v) : s.HandsOut t n u v where
  waitList := hout.waiting ▸ h'.queue
  served i hi := by
    rw [← h'.need_eq, Fair.need, hout.served i hi]
    cases a.requests.get? i <;> rfl
  woken i hi := by
    obtain ⟨w, hw⟩ := Option.isSome_iff_exists.mp (ha.awake i (hq ▸ List.mem_append_left v hi))
    refine ⟨w, (h.waker_eq i).symm.trans hw, ?_⟩
    rw [h'.wakesOf_eq, h.wakesOf_eq, hout.woken i hi, hw]
    rfl
  quiet i hi := by rw [h'.wakesOf_eq, h.wakesOf_eq, hout.quiet i hi]
  next i hi := by
    rw [← h'.get?_requests, hout.next i hi, h.get?_requests, Option.map_map, ← h.needs_eq]
    cases hg : s.acquires.get? i with
    | none => rfl
    | some q =>
      have hneed : s.need i = q.node.state := by rw [Inner.need, hg]; rfl
      rw [hneed]
      rfl
  others i hi hv := by
    rw [← h'.get?_requests, hout.others i hi hv, h.get?_requests]
  available_of_nil hv := by
    rw [h'.availablePermits, h.availablePermits, hout.available_of_nil hv, h.needs_eq]
  available_of_ne_nil hv := by
    rw [h'.availablePermits, h.availablePermits, hout.available_of_ne_nil hv]

theorem Fair.HandsOut.available_le (hout : Fair.HandsOut a b n u v) :
    b.available ≤ a.available + n := by
  rcases eq_or_ne v [] with hv | hv
  · rw [hout.available_of_nil hv]
    exact Nat.add_le_add_left (Nat.sub_le _ _) _
  · rw [hout.available_of_ne_nil hv]
    exact Nat.le_add_right _ _

/-- Nobody behind the served requests could have been served as well. -/
theorem Fair.HandsOut.isGreatest (hout : Fair.HandsOut a b n u v) :
    IsGreatest { k | k ≤ (u ++ v).length ∧ a.needs ((u ++ v).take k) ≤ n } u.length := by
  refine ⟨⟨?_, ?_⟩, ?_⟩
  · rw [List.length_append]
    exact Nat.le_add_right _ _
  · rw [List.take_left]
    exact hout.needs_le
  · rintro k ⟨hk, hle⟩
    by_contra hlt
    rw [Nat.not_le] at hlt
    cases v with
    | nil =>
      rw [List.append_nil] at hk
      omega
    | cons i v =>
      have hneed := hout.lt_need i rfl
      obtain ⟨d, rfl⟩ : ∃ d, k = u.length + (d + 1) := ⟨k - u.length - 1, by omega⟩
      rw [List.take_length_add_append, List.take_succ_cons, Fair.needs, List.map_append,
        List.sum_append, List.map_cons, List.sum_cons] at hle
      rw [Fair.needs] at hneed
      omega

end Refines

/-! ### Reachable states -/

namespace System

variable [Waker W]

/-- **`add_permits` is the greedy hand-out**, in every reachable state, for every amount that the
packed counter has room for. -/
theorem addPermits_greedy {p : ℕ} {es : List (Action W × Output)} {s : System P W}
    (hrun : Run Step (System.new P W p) es s) {n : ℕ}
    (hfit : s.sem.inner.availablePermits + n < 2 ^ (P.bits - 1)) : s.sem.inner.Greedy n := by
  obtain ⟨a, h⟩ := run_follows hrun
  have hrefines := h.sem.refines
  obtain ⟨u, v, hq, hout⟩ := Fair.handOut_handsOut rfl h.sem.sound.nodup n
  rw [hrefines.availablePermits] at hfit
  refine ⟨u ++ v, hq ▸ hrefines.queue, u.length, ?_, ?_⟩
  · simpa only [hrefines.needs_eq] using hout.isGreatest
  rw [List.take_left, List.drop_left]
  rcases Semaphore.addPermits_cases hrefines h.sem.sound.servable h.sem.counter n with
    ⟨hle, t, ht, hrefines'⟩ | ⟨hlt, x, batch, hx, hpanic⟩
  · have hcond : ¬ (u.length = (u ++ v).length ∧
        Inner.maxPermits P < n - s.sem.inner.needs (u ++ v)) := by
      rintro ⟨hlen, hmax⟩
      obtain rfl := List.eq_nil_of_length_eq_zero (Nat.left_eq_add.mp (List.length_append ▸ hlen))
      have hav : (a.release n).available = _ := hout.available_of_nil rfl
      rw [List.append_nil, ← hrefines.needs_eq] at hmax
      omega
    have hav : (a.release n).available ≤ a.available + n := hout.available_le
    have hwrap : (a.release n).wrap P = a.release n := by
      rw [Fair.wrap, counted_of_lt (by rw [two_pow_bits]; omega)]
    rw [if_neg hcond]
    rw [hwrap] at hrefines'
    exact ⟨t, ht, hrefines.handsOut hrefines' h.sem.sound hq hout⟩
  · have hnil : v = [] := by
      by_contra hv
      have hav : (a.release n).available = _ := hout.available_of_ne_nil hv
      omega
    subst hnil
    have hav : (a.release n).available = _ := hout.available_of_nil rfl
    rw [List.append_nil, ← hrefines.needs_eq, if_pos ⟨rfl, by omega⟩]
    exact ⟨x, hx, hpanic.fault⟩

/-- Three requests wait, for 2, 3 and 5 permits, and 6 permits come in. -/
theorem addPermits_greedy_three : ∃ (es : List (Action ℕ × Output)) (s : System .w64 ℕ),
    Run Step (System.new .w64 ℕ 0) es s ∧ s.sem.inner.waiters.queue.tail = some 7 ∧
      s.sem.inner.Greedy 6 := by
  have hcheck : (replay System.call (System.new .w64 ℕ 0) [.acquireMany 7 2, .poll 7 1,
      .acquireMany 8 3, .poll 8 2, .acquireMany 9 5, .poll 9 3]).map
      (fun r => (r.2.sem.inner.availablePermits, r.2.sem.inner.waiters.queue.tail))
      = some (0, some 7) := by decide +kernel
  obtain ⟨⟨es, s⟩, hres, hs⟩ := Option.map_eq_some_iff.mp hcheck
  obtain ⟨hav, htail⟩ := Prod.mk.inj hs
  have hrun := run_of_replay step_of_call hres
  have hfit : s.sem.inner.availablePermits + 6 < 2 ^ 63 := by
    rw [show s.sem.inner.availablePermits = 0 from hav]
    decide
  exact ⟨es, s, hrun, htail, addPermits_greedy hrun hfit⟩

end System

end LocalSync.Semaphore
