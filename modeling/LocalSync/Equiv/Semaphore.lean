/-
  The low-level semaphore refines the fair semaphore.

  `Refines s a batch`: the concrete state `s` represents the abstract state
  `a`, up to the wakers in `batch`, which `add_permits` has taken out of their
  nodes and not woken yet.  Between operations the batch is empty.

  The primitives that the operations are made of (writing a node, popping the
  queue, taking a waker) each have one lemma; the loops follow by induction,
  with the rest of the hand-out as the quantity that an iteration leaves
  unchanged.  Each operation then has one theorem: it does not fault, and it
  commutes with its abstract counterpart.
-/
import LocalSync.Equiv.LinkedList
import LocalSync.Semaphore.Sound

namespace LocalSync.Semaphore

open Lib LinkedList

variable {P : PointerWidth} {W : Type}

/-- The abstract request of a future: everything but its list pointers. -/
def Acquire.request (q : Acquire W) : Request W :=
  { need := q.node.state, waker := q.node.waker, size := q.numPermits, queued := q.queued }

theorem wakesOf_append (i : Addr) (l₁ l₂ : List (Addr × W)) :
    wakesOf i (l₁ ++ l₂) = wakesOf i l₁ ++ wakesOf i l₂ := List.filterMap_append

theorem wakesOf_cons (i j : Addr) (w : W) (l : List (Addr × W)) :
    wakesOf i ((j, w) :: l) = if j = i then w :: wakesOf i l else wakesOf i l := by
  by_cases h : j = i <;> simp [wakesOf, h]

theorem wakesOf_eq_nil {i : Addr} {l : List (Addr × W)} (h : ∀ e ∈ l, e.1 ≠ i) :
    wakesOf i l = [] := by
  rw [wakesOf, List.filterMap_eq_nil_iff]
  exact fun e he => if_neg (h e he)

/-- The concrete state `s` represents the abstract state `a`, once the wakers in `batch` are
woken. -/
structure Refines (s : Inner P W) (a : Fair W) (batch : List (Addr × W)) : Prop where
  /-- The counter is packed with the closed bit. -/
  permits : s.permits = 2 * a.available + a.closed.toNat
  /-- The flag of the wait list agrees with the bit. -/
  closed : s.waiters.closed = a.closed
  /-- The linked list is the queue, newest request at the head. -/
  queue : s.waiters.queue.Represents s.acquires a.waiting.reverse
  /-- The futures are the requests. -/
  requests : s.acquires.map Acquire.request = a.requests
  /-- The log agrees, node by node. -/
  woken : ∀ i, wakesOf i (s.woken ++ batch.reverse) = a.woken i

/-- A concrete state represents one abstract state. -/
theorem Refines.unique {s : Inner P W} {a c : Fair W} {batch : List (Addr × W)}
    (h : Refines s a batch) (h' : Refines s c batch) : a = c := by
  have hclosed : a.closed = c.closed := h.closed.symm.trans h'.closed
  have havailable : a.available = c.available := by
    have hpermits := h.permits.symm.trans h'.permits
    rw [hclosed] at hpermits
    omega
  have hwaiting : a.waiting = c.waiting := List.reverse_inj.mp (h.queue.unique h'.queue)
  have hrequests : a.requests = c.requests := h.requests.symm.trans h'.requests
  have hwoken : a.woken = c.woken := funext fun i => (h.woken i).symm.trans (h'.woken i)
  cases a
  cases c
  simp_all

/-- What the hand-out relies on: whoever waits is live, needs something and can be woken. -/
structure Servable (a : Fair W) : Prop where
  nodup : a.waiting.Nodup
  live : ∀ i ∈ a.waiting, ∃ r, a.requests.get? i = some r ∧ 0 < r.need ∧ r.waker.isSome = true

theorem Fair.Sound.servable {a : Fair W} (ha : a.Sound) : Servable a where
  nodup := ha.nodup
  live i hi := by
    obtain ⟨r, hr, -, hpos⟩ := ha.exists_of_mem hi
    exact ⟨r, hr, hpos, Fair.waker_of_get? hr ▸ ha.awake i hi⟩

/-! ### Arithmetic of the packed counter -/

theorem two_mul_maxPermits (P : PointerWidth) : 2 * Inner.maxPermits P + 1 < 2 ^ P.bits := by
  have hb : 2 ^ 16 ≤ 2 ^ P.bits := Nat.pow_le_pow_right (by decide) P.le_bits
  rw [Inner.maxPermits, PointerWidth.usizeMax, Nat.shiftRight_eq_div_pow]
  omega

theorem packed_and_one (n : ℕ) (c : Bool) : (2 * n + c.toNat) &&& 1 = c.toNat := by
  rw [Nat.and_one_is_mod]
  cases c <;> simp [Nat.add_mod]

theorem packed_or_one (n : ℕ) (c : Bool) : (2 * n + c.toNat) ||| 1 = 2 * n + 1 := by
  have hor : ∀ b < 2, 2 * n + b = 2 * n ||| b := fun b hb =>
    Nat.two_pow_add_eq_or_of_lt (i := 1) hb n
  rw [hor c.toNat (by cases c <;> decide), Nat.or_assoc, hor 1 (by decide)]
  cases c <;> rfl

theorem packed_shiftRight (n : ℕ) (c : Bool) : (2 * n + c.toNat) >>> 1 = n := by
  rw [Nat.shiftRight_eq_div_pow]
  have hc : c.toNat < 2 := by cases c <;> decide
  omega

/-- The permits that the packed counter can tell apart: a bit is taken by the closed flag. -/
def counted (P : PointerWidth) (n : ℕ) : ℕ := n % 2 ^ (P.bits - 1)

theorem two_pow_bits (P : PointerWidth) : 2 ^ P.bits = 2 * 2 ^ (P.bits - 1) := by
  rw [← Nat.pow_succ', Nat.succ_eq_add_one, Nat.sub_add_cancel (Nat.le_trans (by decide) P.le_bits)]

theorem counted_of_lt {n : ℕ} (h : 2 * n < 2 ^ P.bits) : counted P n = n := by
  rw [two_pow_bits] at h
  exact Nat.mod_eq_of_lt (by omega)

/-- What is below a counter that has not wrapped has not wrapped either. -/
theorem counted_of_le {m n : ℕ} (hn : counted P n = n) (h : m ≤ n) : counted P m = m := by
  have hlt : counted P n < 2 ^ (P.bits - 1) := Nat.mod_lt _ (Nat.two_pow_pos _)
  exact Nat.mod_eq_of_lt (by omega)

theorem two_mul_counted_lt (P : PointerWidth) (n : ℕ) : 2 * counted P n + 1 < 2 ^ P.bits := by
  have hpos : 0 < 2 ^ (P.bits - 1) := Nat.two_pow_pos _
  have hlt : counted P n < 2 ^ (P.bits - 1) := Nat.mod_lt _ hpos
  rw [two_pow_bits]
  omega

@[simp] theorem counted_counted (P : PointerWidth) (n : ℕ) :
    counted P (counted P n) = counted P n := Nat.mod_mod _ _

/-- Packed arithmetic wraps the permits and keeps the closed bit. -/
theorem packed_counted (P : PointerWidth) (n : ℕ) (c : Bool) :
    (2 * n + c.toNat) % 2 ^ P.bits = 2 * counted P n + c.toNat := by
  have hc : c.toNat < 2 := by cases c <;> decide
  have hlt := two_mul_counted_lt P n
  have hn : 2 * n + c.toNat = 2 ^ P.bits * (n / 2 ^ (P.bits - 1)) +
      (2 * counted P n + c.toNat) := by
    have hdiv := Nat.div_add_mod n (2 ^ (P.bits - 1))
    rw [two_pow_bits, Nat.mul_assoc, counted]
    omega
  rw [hn, Nat.mul_add_mod, Nat.mod_eq_of_lt (by omega)]

theorem shl_eq_counted (P : PointerWidth) (n : ℕ) :
    P.shl n Inner.permitShift = 2 * counted P n := by
  rw [PointerWidth.shl, Inner.permitShift, Nat.shiftLeft_eq, Nat.pow_one, Nat.mul_comm]
  exact packed_counted P n false

namespace Refines

variable {s : Inner P W} {a : Fair W} {b : List (Addr × W)} {i : Addr} {r : Request W}
  {q : List Addr}

theorem availablePermits (h : Refines s a b) : s.availablePermits = a.available := by
  rw [Inner.availablePermits, h.permits]
  exact packed_shiftRight _ _

theorem isClosed (h : Refines s a b) : s.isClosed = a.closed := by
  rw [Inner.isClosed, h.permits, Inner.closed, packed_and_one]
  cases a.closed <;> rfl

theorem dom_eq (h : Refines s a b) : s.acquires.dom = a.requests.dom := by
  rw [← h.requests]
  rfl

/-- The future behind a request. -/
theorem get? (h : Refines s a b) (hr : a.requests.get? i = some r) :
    ∃ q, s.acquires.get? i = some q ∧ q.request = r := by
  rw [← h.requests, Store.get?_map] at hr
  exact Option.map_eq_some_iff.mp hr

theorem deref (h : Refines s a b) (hr : a.requests.get? i = some r) :
    ∃ q, s.deref i = .ok q ∧ q.request = r := by
  obtain ⟨q, hq, rfl⟩ := h.get? hr
  exact ⟨q, by rw [Inner.deref, hq], rfl⟩

/-- The queue is no longer than the number of live futures. -/
theorem length_waiting_le (h : Refines s a b) (ha : Servable a) :
    a.waiting.length ≤ s.acquires.dom.card := by
  rw [← List.toFinset_card_of_nodup ha.nodup, h.dom_eq]
  refine Finset.card_le_card fun i hi => ?_
  obtain ⟨r, hr, -⟩ := ha.live i (List.mem_toFinset.mp hi)
  exact Store.mem_dom_of_get? hr

/-! ### The primitives -/

/-- A change of one future that leaves its pointers alone does not touch the links. -/
theorem links_modify (h : Store Addr (Acquire W)) (i : Addr) (f : Acquire W → Acquire W)
    (hf : ∀ q, (f q).node.pointers = q.node.pointers) :
    nextOf (h.modify i f) = nextOf h ∧ prevOf (h.modify i f) = prevOf h := by
  constructor <;> funext j <;> by_cases hj : j = i
  · subst hj
    cases hg : h.get? j <;> simp [nextOf, hg, Link.pointers, hf]
  · simp [nextOf, Store.get?_modify_of_ne _ _ hj]
  · subst hj
    cases hg : h.get? j <;> simp [prevOf, hg, Link.pointers, hf]
  · simp [prevOf, Store.get?_modify_of_ne _ _ hj]

/-- Writing a future in place, off its pointers. -/
theorem modify (h : Refines s a b) (i : Addr) (f : Acquire W → Acquire W)
    (g : Request W → Request W) (hf : ∀ q, (f q).node.pointers = q.node.pointers)
    (hg : ∀ q, (f q).request = g q.request) :
    Refines ({ s with acquires := s.acquires.modify i f } : Inner P W)
      { a with requests := a.requests.modify i g } b where
  permits := h.permits
  closed := h.closed
  queue := h.queue.congr (links_modify _ i f hf).1 (links_modify _ i f hf).2 h.queue.live
  requests := by rw [← h.requests]; exact Store.map_modify _ _ _ _ _ hg
  woken := h.woken

theorem updateNode (h : Refines s a b) (i : Addr) (f : Waiter W → Waiter W)
    (g : Request W → Request W) (hf : ∀ n, (f n).pointers = n.pointers)
    (hg : ∀ q : Acquire W, ({ q with node := f q.node } : Acquire W).request = g q.request) :
    Refines (s.updateNode i f) { a with requests := a.requests.modify i g } b :=
  h.modify i _ g (fun q => hf q.node) hg

theorem setQueued (h : Refines s a b) (i : Addr) (queued : Bool) :
    Refines (s.setQueued i queued)
      { a with requests := a.requests.modify i ({ · with queued }) } b :=
  h.modify i _ _ (fun _ => rfl) fun _ => rfl

/-- Popping the queue gives its oldest request. -/
theorem popBack (h : Refines s a b) (hq : a.waiting = i :: q) :
    ∃ s', s.onQueue LinkedList.popBack = .ok (some i, s') ∧
      Refines s' { a with waiting := q } b := by
  have hrep := h.queue
  rw [hq, List.reverse_cons] at hrep
  obtain ⟨l', h', hpop, hrep', hframe⟩ := popBack_spec hrep
  refine ⟨{ s with waiters := { s.waiters with queue := l' }, acquires := h' }, ?_,
    h.permits, h.closed, hrep', ?_, h.woken⟩
  · rw [Inner.onQueue, hpop]
  · rw [← h.requests]
    exact hframe.payload _ Acquire.request fun _ _ => rfl

theorem popBack_nil (h : Refines s a b) (hq : a.waiting = []) :
    s.onQueue LinkedList.popBack = .ok (none, s) := by
  have hrep := h.queue
  rw [hq, List.reverse_nil] at hrep
  rw [Inner.onQueue, LinkedList.popBack_nil hrep]

theorem takeWaker (h : Refines s a b) (hr : a.requests.get? i = some r) :
    ∃ s', s.takeWaker i = .ok (r.waker, s') ∧
      Refines s' { a with requests := a.requests.modify i ({ · with waker := none }) } b := by
  obtain ⟨q, hq, rfl⟩ := h.deref hr
  refine ⟨s.updateNode i ({ · with waker := none }), ?_,
    h.updateNode i _ _ (fun _ => rfl) fun _ => rfl⟩
  rw [Inner.takeWaker, hq]
  rfl

/-- A waker taken from a node joins the batch. -/
theorem push (h : Refines s a b) (hb : ∀ e ∈ b, e.1 ≠ i) (w : W) :
    Refines s { a with woken := Function.update a.woken i (a.woken i ++ [w]) } (b ++ [(i, w)]) where
  permits := h.permits
  closed := h.closed
  queue := h.queue
  requests := h.requests
  woken j := by
    have hj := h.woken j
    rw [wakesOf_append] at hj
    rw [List.reverse_append, List.reverse_singleton, List.singleton_append, wakesOf_append,
      wakesOf_cons]
    by_cases hji : j = i
    · subst hji
      have hnil : wakesOf j b.reverse = [] :=
        wakesOf_eq_nil fun e he => hb e (List.mem_reverse.mp he)
      rw [hnil, List.append_nil] at hj
      rw [if_pos rfl, hnil, hj]
      exact (Function.update_self (f := a.woken) j _).symm
    · rw [if_neg (Ne.symm hji), hj]
      exact (Function.update_of_ne hji _ a.woken).symm

/-- Waking the batch. -/
theorem flush (h : Refines s a b) : Refines (s.wake b.reverse) a [] where
  permits := h.permits
  closed := h.closed
  queue := h.queue
  requests := h.requests
  woken i := by
    rw [List.reverse_nil, List.append_nil]
    exact h.woken i

/-- Changing the counter. -/
theorem setPermits (h : Refines s a b) {p n : ℕ} (hp : p = 2 * n + a.closed.toNat) :
    Refines ({ s with permits := p } : Inner P W) { a with available := n } b :=
  ⟨hp, h.closed, h.queue, h.requests, h.woken⟩

end Refines

/-! ### The loops of `add_permits` -/

theorem Servable.wakeUp {a : Fair W} {i : Addr} {q : List Addr} (ha : Servable a)
    (hq : a.waiting = i :: q) : Servable (a.wakeUp i 0) := by
  obtain ⟨hi, hnd⟩ := List.nodup_cons.mp (hq ▸ ha.nodup)
  have hw : (a.wakeUp i 0).waiting = q := by simp [Fair.wakeUp, hq]
  refine ⟨hw ▸ hnd, fun j hj => ?_⟩
  rw [hw] at hj
  obtain ⟨r, hr, hpos, hsome⟩ := ha.live j (by simp [hq, hj])
  exact ⟨r, (Store.get?_modify_of_ne _ _ (ne_of_mem_of_not_mem hj hi)).trans hr, hpos, hsome⟩

theorem Servable.topUp {a : Fair W} {i : Addr} {n : ℕ} (ha : Servable a) (hn : n < a.need i) :
    Servable (a.topUp i n) := by
  refine ⟨ha.nodup, fun j hj => ?_⟩
  obtain ⟨r, hr, hpos, hsome⟩ := ha.live j hj
  by_cases hji : j = i
  · subst hji
    rw [Fair.need_of_get? hr] at hn
    exact ⟨{ r with need := r.need - n }, by simp [Fair.topUp, hr], Nat.sub_pos_of_lt hn, hsome⟩
  · exact ⟨r, (Store.get?_modify_of_ne _ _ hji).trans hr, hpos, hsome⟩

/-- Handing out nothing changes nothing, as long as everybody who waits needs something. -/
theorem Servable.handOut_zero {a : Fair W} (ha : Servable a) :
    Fair.handOut 0 a.waiting a = a := by
  cases hq : a.waiting with
  | nil => rw [Fair.handOut, Nat.add_zero]
  | cons i q =>
    obtain ⟨r, hr, hpos, -⟩ := ha.live i (by simp [hq])
    have hn : ¬ a.need i ≤ 0 := by
      rw [Fair.need_of_get? hr]
      omega
    have hid : a.requests.modify i (fun r => { r with need := r.need - 0 }) = a.requests :=
      Store.modify_eq_self _ _ _ fun _ _ => rfl
    rw [Fair.handOut, if_neg hn, Fair.topUp, hid]

section Loops

variable {s : Inner P W} {a : Fair W} {i : Addr} {q : List Addr} {rem fuel : ℕ}
  {wakers : WakeList (Addr × W)} {isEmpty : Bool}

/-- The node that `last` finds is the oldest request. -/
theorem Refines.last {b : List (Addr × W)} (h : Refines s a b) (hq : a.waiting = i :: q) :
    ∃ t : Acquire W, s.acquires.get? i = some t ∧
      s.waiters.queue.last s.acquires = .ok (some (i, t)) := by
  have hrep := h.queue
  rw [hq, List.reverse_cons] at hrep
  exact last_spec hrep

/-- An iteration of `'inner` that serves the oldest request. -/
theorem assignLoop_serve (fuel : ℕ) (isEmpty : Bool) (h : Refines s a wakers.inner)
    (ha : Servable a)
    (hq : a.waiting = i :: q) (hn : a.need i ≤ rem) (hb : ∀ e ∈ wakers.inner, e.1 ≠ i)
    (hpush : wakers.canPush = true) :
    ∃ (s' : Inner P W) (wakers' : WakeList (Addr × W)) (w : W),
      Inner.assignLoop (fuel + 1) s rem wakers isEmpty
        = Inner.assignLoop fuel s' (rem - a.need i) wakers' isEmpty ∧
      wakers'.inner = wakers.inner ++ [(i, w)] ∧ Refines s' (a.wakeUp i 0) wakers'.inner := by
  obtain ⟨t, ht, hlast⟩ := h.last hq
  obtain ⟨r, hr, hpos, hsome⟩ := ha.live i (by simp [hq])
  obtain ⟨w, hw⟩ := Option.isSome_iff_exists.mp hsome
  have htr : t.request = r := by
    have hmap := congrArg (fun m => m.get? i) h.requests
    simpa [ht, hr] using hmap
  have hstate : t.node.state = a.need i := by rw [Fair.need_of_get? hr, ← htr]; rfl
  have hmin : min t.node.state rem = a.need i := by rw [hstate]; exact Nat.min_eq_left hn
  -- the waiter gets all it needs
  have h₁ := h.updateNode i (fun n => (n.assignPermits rem).1)
    (fun r => { r with need := r.need - min r.need rem }) (fun _ => rfl) fun _ => rfl
  -- it leaves the queue
  obtain ⟨s₂, hpop, h₂⟩ := h₁.popBack hq
  -- and its waker goes into the batch
  have hr₂ : (a.requests.modify i fun r => { r with need := r.need - min r.need rem }).get? i
      = some { r with need := r.need - min r.need rem } := by simp [hr]
  obtain ⟨s₃, htake, h₃⟩ := h₂.takeWaker hr₂
  obtain ⟨wakers', hpush', hinner⟩ := WakeList.push_eq hpush (i, w)
  refine ⟨s₃, wakers', w, ?_, hinner, ?_⟩
  · have hfilled : (t.node.state - min t.node.state rem == 0) = true := by
      rw [hmin, hstate, Nat.sub_self]
      rfl
    rw [Inner.assignLoop, if_pos hpush, hlast]
    simp only [Waiter.assignPermits, hfilled, Bool.not_true, Bool.false_eq_true, ↓reduceIte]
    simp only [Waiter.assignPermits] at hpop
    rw [hpop, ok_bind]
    simp only
    rw [htake, ok_bind, hw]
    simp only
    rw [hpush', hmin]
  · have hwaker : a.waker i = some w := by rw [Fair.waker_of_get? hr, hw]
    have h₄ := h₃.push hb w
    rw [← hinner] at h₄
    have hreq : ((a.requests.modify i fun r => { r with need := r.need - min r.need rem }).modify i
        ({ · with waker := none })) = a.requests.modify i ({ · with need := 0, waker := none }) :=
      Store.ext_get? fun j => by
        by_cases hj : j = i
        · subst hj
          have hle : r.need ≤ rem := by rwa [Fair.need_of_get? hr] at hn
          simp [hr, Nat.min_eq_left hle]
        · simp [Store.get?_modify, hj]
    simpa only [Fair.wakeUp, hq, hreq, hwaker, List.tail_cons, Option.toList_some] using h₄

/-- The iteration of `'inner` that cannot serve the oldest request. -/
theorem assignLoop_topUp (fuel : ℕ) (isEmpty : Bool) (h : Refines s a wakers.inner)
    (ha : Servable a)
    (hq : a.waiting = i :: q) (hn : rem < a.need i) (hpush : wakers.canPush = true) :
    ∃ s' : Inner P W,
      Inner.assignLoop (fuel + 1) s rem wakers isEmpty = .ok ((0, wakers, isEmpty), s') ∧
      Refines s' (a.topUp i rem) wakers.inner := by
  obtain ⟨t, ht, hlast⟩ := h.last hq
  obtain ⟨r, hr, hpos, hsome⟩ := ha.live i (by simp [hq])
  have htr : t.request = r := by
    have hmap := congrArg (fun m => m.get? i) h.requests
    simpa [ht, hr] using hmap
  have hstate : t.node.state = a.need i := by rw [Fair.need_of_get? hr, ← htr]; rfl
  have hmin : min t.node.state rem = rem := by rw [hstate]; exact Nat.min_eq_right hn.le
  have h₁ := h.updateNode i (fun n => (n.assignPermits rem).1)
    (fun r => { r with need := r.need - min r.need rem }) (fun _ => rfl) fun _ => rfl
  refine ⟨s.updateNode i fun n => (n.assignPermits rem).1, ?_, ?_⟩
  · have hfilled : (t.node.state - min t.node.state rem == 0) = false := by
      rw [hmin, hstate, beq_eq_false_iff_ne]
      omega
    rw [Inner.assignLoop, if_pos hpush, hlast]
    simp only [Waiter.assignPermits, hfilled, Bool.not_false, ↓reduceIte]
    rw [hmin, Nat.sub_self]
  · have hreq : (a.requests.modify i fun r => { r with need := r.need - min r.need rem })
        = a.requests.modify i fun r => { r with need := r.need - rem } :=
      Store.ext_get? fun j => by
        by_cases hj : j = i
        · subst hj
          have hle : rem ≤ r.need := by
            rw [Fair.need_of_get? hr] at hn
            exact hn.le
          simp [hr, Nat.min_eq_right hle]
        · simp [Store.get?_modify, hj]
    rw [hreq] at h₁
    exact h₁

/-- **The loop `'inner`** hands out the permits as the abstract semaphore does, until the queue
is empty, the permits are used up or the batch is full.  Whoever leaves the queue joins the
batch. -/
theorem assignLoop_spec (rem : ℕ) (wakers : WakeList (Addr × W)) (h : Refines s a wakers.inner)
    (ha : Servable a)
    (hb : ∀ e ∈ wakers.inner, e.1 ∉ a.waiting) (hfuel : a.waiting.length < fuel) :
    ∃ (s' : Inner P W) (a' : Fair W) (rem' : ℕ) (wakers' : WakeList (Addr × W)) (e : Bool),
      Inner.assignLoop fuel s rem wakers false = .ok ((rem', wakers', e), s') ∧
      Refines s' a' wakers'.inner ∧ Servable a' ∧ a'.available = a.available ∧
      Fair.handOut rem' a'.waiting a' = Fair.handOut rem a.waiting a ∧
      wakers'.inner.map Prod.fst ++ a'.waiting = wakers.inner.map Prod.fst ++ a.waiting ∧
      (e = true ∧ a'.waiting = [] ∧ wakers'.canPush = true ∨
        e = false ∧ (rem' = 0 ∨ wakers'.canPush = false)) := by
  induction fuel generalizing s a rem wakers with
  | zero => omega
  | succ fuel ih =>
    by_cases hpush : wakers.canPush = true
    swap
    · rw [Bool.not_eq_true] at hpush
      exact ⟨s, a, rem, wakers, false, by rw [Inner.assignLoop, hpush]; rfl, h, ha, rfl, rfl, rfl,
        Or.inr ⟨rfl, Or.inr hpush⟩⟩
    cases hq : a.waiting with
    | nil =>
      have hlast : s.waiters.queue.last s.acquires = .ok none := by
        have hrep := h.queue
        rw [hq, List.reverse_nil] at hrep
        exact last_nil hrep
      refine ⟨s, a, rem, wakers, true, ?_, h, ha, rfl, by rw [hq], by rw [hq],
        Or.inl ⟨rfl, hq, hpush⟩⟩
      rw [Inner.assignLoop, if_pos hpush, hlast]
    | cons i q =>
      by_cases hn : a.need i ≤ rem
      · have hi : ∀ e ∈ wakers.inner, e.1 ≠ i := fun e he hei =>
          hb e he (by simp [hq, hei])
        obtain ⟨s₁, wakers₁, w, hloop, hinner, h₁⟩ :=
          assignLoop_serve fuel false h ha hq hn hi hpush
        have hw₁ : (a.wakeUp i 0).waiting = q := by simp [Fair.wakeUp, hq]
        have hb₁ : ∀ e ∈ wakers₁.inner, e.1 ∉ (a.wakeUp i 0).waiting := by
          intro e he
          rw [hinner, List.mem_append, List.mem_singleton] at he
          rw [hw₁]
          rcases he with he | rfl
          · exact fun hm => hb e he (by simp [hq, hm])
          · exact (List.nodup_cons.mp (hq ▸ ha.nodup)).1
        rw [hq, List.length_cons] at hfuel
        obtain ⟨s', a', rem', wakers', e, hres, h', ha', hav, hout, hbatch, hexit⟩ :=
          ih (rem - a.need i) wakers₁ h₁ (ha.wakeUp hq) hb₁ (by rw [hw₁]; omega)
        refine ⟨s', a', rem', wakers', e, hloop.trans hres, h', ha', hav, ?_, ?_, hexit⟩
        · rw [hout, hw₁, Fair.handOut, if_pos hn]
        · rw [hbatch, hw₁, hinner, List.map_append, List.append_assoc]
          rfl
      · rw [Nat.not_le] at hn
        obtain ⟨s', hres, h'⟩ := assignLoop_topUp fuel false h ha hq hn hpush
        have hw' : (a.topUp i rem).waiting = i :: q := hq
        refine ⟨s', a.topUp i rem, 0, wakers, false, hres, h', ha.topUp hn, rfl, ?_, by rw [hw'],
          Or.inr ⟨rfl, Or.inl rfl⟩⟩
        rw [(ha.topUp hn).handOut_zero, Fair.handOut, if_neg (Nat.not_le.mpr hn)]

theorem batchLoop_zero :
    Inner.batchLoop (fuel + 1) s 0 wakers isEmpty = .ok s := by
  rw [Inner.batchLoop, if_neg (Nat.lt_irrefl 0), if_pos rfl]

/-- The permits of `a`, once the packed counter has wrapped. -/
def Fair.wrap (P : PointerWidth) (a : Fair W) : Fair W :=
  { a with available := counted P a.available }

/-- What is left over goes to the packed counter, which wraps. -/
theorem Refines.addRest (h : Refines s a []) (hmax : rem ≤ Inner.maxPermits P) :
    Refines ({ s with permits := P.add s.permits (P.shl rem Inner.permitShift) } : Inner P W)
      (({ a with available := a.available + rem } : Fair W).wrap P) [] := by
  have hbound := two_mul_maxPermits P
  have hperm : P.add s.permits (P.shl rem Inner.permitShift)
      = 2 * counted P (a.available + rem) + a.closed.toNat := by
    rw [Inner.permitShift, P.shl_one_eq (by omega), h.permits, PointerWidth.add, ← packed_counted]
    congr 1
    omega
  exact h.setPermits hperm

/-- What `add_permits(n)` panics with: the hand-out is done, but the counter is as it was, and the
wakers of the last batch, the newest requests, have been dropped without being woken. -/
structure LimitPanic (a : Fair W) (n : ℕ) (u : Unwind (Inner P W)) (batch : List (Addr × W)) :
    Prop where
  fault : u.fault = .panic s!"cannot add more than MAX_PERMITS permits ({Inner.maxPermits P})"
  refines : Refines u.state { a.release n with available := a.available } batch
  suffix : batch.map Prod.fst <:+ a.waiting
  length : batch.length = a.waiting.length % numWakers

/-- A panic after a full batch has been woken. -/
theorem LimitPanic.of_full {b : Fair W} {m n : ℕ} {u : Unwind (Inner P W)}
    {batch : List (Addr × W)} (h : LimitPanic b m u batch) (hrelease : a.release n = b.release m)
    (hav : b.available = a.available) {v : List Addr} (hwaiting : v ++ b.waiting = a.waiting)
    (hv : v.length = numWakers) : LimitPanic a n u batch where
  fault := h.fault
  refines := by
    rw [hrelease, ← hav]
    exact h.refines
  suffix := h.suffix.trans ⟨v, hwaiting⟩
  length := by
    rw [h.length, ← hwaiting, List.length_append, hv, Nat.add_mod_left]

/-- **The loop `while rem > 0`**: batch by batch, `add_permits` hands the permits out as the
abstract semaphore does, and panics when too many are left over. -/
theorem batchLoop_cases (h : Refines s a []) (ha : Servable a)
    (hav : counted P a.available = a.available)
    (hfuel : a.waiting.length + 2 ≤ fuel) :
    ((a.release rem).available ≤ a.available + Inner.maxPermits P ∧
      ∃ s', Inner.batchLoop fuel s rem WakeList.new false = .ok s' ∧
        Refines s' ((a.release rem).wrap P) []) ∨
    (a.available + Inner.maxPermits P < (a.release rem).available ∧
      ∃ u batch, Inner.batchLoop fuel s rem WakeList.new false = .error u ∧
        LimitPanic a rem u batch) := by
  induction fuel generalizing s a rem with
  | zero => omega
  | succ fuel ih =>
    obtain ⟨fuel, rfl⟩ : ∃ f, fuel = f + 1 := ⟨fuel - 1, by omega⟩
    have hwrap : a.wrap P = a := by rw [Fair.wrap, hav]
    rcases Nat.eq_zero_or_pos rem with rfl | hrem
    · refine Or.inl ?_
      rw [Fair.release, ha.handOut_zero, hwrap]
      exact ⟨Nat.le_add_right _ _, s, batchLoop_zero, h⟩
    obtain ⟨s₁, a₁, rem₁, wakers₁, e, hres, h₁, ha₁, hav₁, hout, hbatch, hexit⟩ :=
      assignLoop_spec rem WakeList.new h ha (fun e he => by cases he)
        (Nat.lt_succ_of_le (h.length_waiting_le ha))
    have hflush : Refines (s₁.wake wakers₁.wakeAll) a₁ [] := h₁.flush
    have hrelease : a.release rem = a₁.release rem₁ := hout.symm
    have hcounted : counted P a₁.available = a₁.available := by rw [hav₁, hav]
    have hsplit : wakers₁.inner.map Prod.fst ++ a₁.waiting = a.waiting := hbatch
    rw [Inner.batchLoop, if_pos hrem, hres, ok_bind]
    simp only
    rcases Nat.eq_zero_or_pos rem₁ with rfl | hrem₁
    · -- all permits are used up
      have hcond : ¬ (decide (0 > 0) && e) = true := by simp
      have hzero : a₁.release 0 = a₁ := ha₁.handOut_zero
      refine Or.inl ?_
      rw [hrelease, if_neg hcond, hzero, hav₁, Fair.wrap, hcounted]
      exact ⟨Nat.le_add_right _ _, _, batchLoop_zero, hflush⟩
    rcases hexit with ⟨rfl, hnil, hroom⟩ | ⟨rfl, hzero | hfull⟩
    · -- the queue is empty: the rest goes to the counter, if it passes the assertion
      have hcond : (decide (rem₁ > 0) && true) = true := by simpa using hrem₁
      have hrest := Fair.release_of_nil hnil rem₁
      rw [if_pos hcond, hrelease, hrest]
      by_cases hmax : rem₁ ≤ Inner.maxPermits P
      · refine Or.inl ⟨hav₁ ▸ Nat.add_le_add_left hmax _, ?_⟩
        rw [if_pos hmax]
        exact ⟨_, batchLoop_zero, hflush.addRest hmax⟩
      · refine Or.inr ⟨hav₁ ▸ Nat.add_lt_add_left (Nat.lt_of_not_le hmax) _, ?_⟩
        rw [if_neg hmax]
        rw [hnil, List.append_nil] at hsplit
        refine ⟨_, wakers₁.inner, rfl, rfl, ?_, hsplit ▸ List.suffix_rfl, ?_⟩
        · rw [hrelease, hrest, ← hav₁]
          exact h₁
        · rw [← hsplit, List.length_map, Nat.mod_eq_of_lt (of_decide_eq_true hroom)]
    · omega
    · -- the batch is full: the queue has become shorter
      have hlen : (wakers₁.inner.map Prod.fst).length = numWakers := by
        rw [List.length_map]
        exact Nat.le_antisymm wakers₁.length_le (Nat.not_lt.mp (of_decide_eq_false hfull))
      have hlt : a₁.waiting.length < a.waiting.length := by
        rw [← hsplit, List.length_append, hlen]
        exact Nat.lt_add_of_pos_left (Nat.zero_lt_succ _)
      rw [Bool.and_false, if_neg Bool.false_ne_true, hrelease, ← hav₁]
      rcases ih hflush ha₁ hcounted (by omega) with hok | ⟨hlt', u, batch, hu, hpanic⟩
      · exact Or.inl hok
      · exact Or.inr ⟨hlt', u, batch, hu, hpanic.of_full hrelease hav₁ hsplit hlen⟩

/-- The hand-out of `n` permits leaves a remainder that passes the assertion of `add_permits`, and
a counter that fits. -/
structure Fits (P : PointerWidth) (a : Fair W) (n : ℕ) : Prop where
  rest_le : (a.release n).available ≤ a.available + Inner.maxPermits P
  packed : 2 * (a.release n).available + 1 < 2 ^ P.bits

theorem Fits.of_le (h : (a.release rem).available ≤ Inner.maxPermits P) : Fits P a rem := by
  have hbound := two_mul_maxPermits P
  exact ⟨by omega, by omega⟩

end Loops

/-! ### The operations -/

section Operations

variable {s : Inner P W} {a : Fair W}

/-- **`add_permits`**, whatever the amount. -/
theorem addPermits_cases (h : Refines s a []) (ha : Servable a)
    (hav : counted P a.available = a.available) (n : ℕ) :
    ((a.release n).available ≤ a.available + Inner.maxPermits P ∧
      ∃ s', s.addPermits n = .ok s' ∧ Refines s' ((a.release n).wrap P) []) ∨
    (a.available + Inner.maxPermits P < (a.release n).available ∧
      ∃ u batch, s.addPermits n = .error u ∧ LimitPanic a n u batch) :=
  batchLoop_cases h ha hav (Nat.add_le_add_right (h.length_waiting_le ha) 2)

/-- **`add_permits` hands out.** -/
theorem addPermits_spec (h : Refines s a []) (ha : Servable a) (n : ℕ)
    (hfits : Fits P a n) : ∃ s', s.addPermits n = .ok s' ∧ Refines s' (a.release n) [] := by
  have hle := Fair.available_le_release a n
  have hpacked := hfits.packed
  have hwrap : (a.release n).wrap P = a.release n := by
    rw [Fair.wrap, counted_of_lt (by omega)]
  rcases addPermits_cases h ha (counted_of_lt (by omega)) n with ⟨-, hok⟩ | ⟨hlt, -⟩
  · rwa [hwrap] at hok
  · exact absurd hfits.rest_le (Nat.not_le.mpr hlt)

/-- **`release`**, whatever the amount. -/
theorem release_cases (h : Refines s a []) (ha : a.Sound)
    (hav : counted P a.available = a.available) (n : ℕ) :
    ((a.release n).available ≤ a.available + Inner.maxPermits P ∧
      ∃ s', s.release n = .ok s' ∧ Refines s' ((a.release n).wrap P) []) ∨
    (a.available + Inner.maxPermits P < (a.release n).available ∧
      ∃ u batch, s.release n = .error u ∧ LimitPanic a n u batch) := by
  unfold Inner.release
  split_ifs with hn
  · subst hn
    rw [Fair.release_zero ha, Fair.wrap, hav]
    exact Or.inl ⟨Nat.le_add_right _ _, s, rfl, h⟩
  · exact addPermits_cases h ha.servable hav n

/-- **`release` hands out.** -/
theorem release_spec (h : Refines s a []) (ha : a.Sound) (n : ℕ)
    (hfits : Fits P a n) : ∃ s', s.release n = .ok s' ∧ Refines s' (a.release n) [] := by
  unfold Inner.release
  split_ifs with hn
  · subst hn
    exact ⟨s, rfl, by rwa [Fair.release_zero ha]⟩
  · exact addPermits_spec h ha.servable n hfits

end Operations

end LocalSync.Semaphore
