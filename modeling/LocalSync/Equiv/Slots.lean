/-
  A semaphore all of whose futures ask for one permit, as the bounded channel
  and the once cell use it.

  `Slots b p a x n`: the semaphore `x` stands for the abstract semaphore `a`,
  the permits inside it and the `n` that are out make up `b`, and its futures
  are those of the callers that `p` says are suspended, each waiting for one
  permit.  The operations move permits in and out; awaiting one is an operation
  of its own, since its future is dropped as soon as it returns.
-/
import LocalSync.Equiv.Tracked

namespace LocalSync.Semaphore

open Lib

variable {P : PointerWidth} {W : Type}

/-- Await one permit. -/
def Fair.awaitOne [Waker W] (a : Fair W) (i : Addr) (first : Bool) (cx : W) :
    Poll (Except AcquireError Unit) × Fair W :=
  match (if first then a.acquire i 1 else a).poll i cx with
  | (.pending, a) => (.pending, a)
  | (.ready r, a) => (.ready r, a.cancel i)

/-- One permit fits any counter. -/
theorem one_le_maxPermits (P : PointerWidth) : (1 : UInt32).toNat ≤ Inner.maxPermits P := by
  have hbits : 2 ^ 16 ≤ 2 ^ P.bits := Nat.pow_le_pow_right (by decide) P.le_bits
  have h1 : (1 : UInt32).toNat = 1 := rfl
  rw [Inner.maxPermits, PointerWidth.usizeMax, Nat.shiftRight_eq_div_pow]
  omega

variable [Waker W]

/-- **A semaphore of `b` permits**, of which `n` are out, with the suspended callers `p`. -/
structure Slots (b : ℕ) (p : Addr → Bool) (a : Fair W) (x : Tracked P W) (n : ℕ) : Prop where
  models : x.Models a
  inside : a.inside + n = b
  /-- Each suspended caller asks for one permit, and nobody else does. -/
  sizes : ∀ i, a.sizes.get? i = if p i then some 1 else none
  pending : ∀ i, p i = true → (x.history.track i).pending.isSome = true

/-- The callers that are suspended once `i` is. -/
def suspend (p : Addr → Bool) (i : Addr) (j : Addr) : Bool := p j || j == i

/-- The callers that are suspended once `i` is not any more. -/
def resumed (p : Addr → Bool) (i : Addr) (j : Addr) : Bool := p j && j != i

theorem resumed_of_ne {p : Addr → Bool} {i j : Addr} (hj : j ≠ i) : resumed p i j = p j := by
  simp [resumed, hj]

/-- Who is not suspended need not resume. -/
theorem resumed_eq_self {p : Addr → Bool} {i : Addr} (hi : p i = false) : resumed p i = p := by
  funext j
  unfold resumed
  by_cases hj : j = i <;> simp [hj, hi]

namespace Slots

variable {b : ℕ} {p : Addr → Bool} {a : Fair W} {x y : Tracked P W} {n k : ℕ} {i : Addr}
  {r : Request W}

theorem new (hb : b ≤ Inner.maxPermits P) :
    Slots b (fun _ => false) (Fair.new W b) (Tracked.new P W b) 0 where
  models := Tracked.new_models hb
  inside := by simp [Fair.inside, Fair.new]
  sizes i := by simp [Fair.sizes, Fair.new]
  pending i hi := by cases hi

theorem isClosed (h : Slots b p a x n) : x.inner.isClosed = a.closed := h.models.refines.isClosed

/-- A suspended caller has a request for one permit. -/
theorem exists_request (h : Slots b p a x n) (hi : p i = true) :
    ∃ r, a.requests.get? i = some r ∧ r.size = 1 :=
  Fair.exists_of_sizes (by rw [h.sizes i, if_pos hi])

/-- Every request is the one of a suspended caller. -/
theorem suspended_of_get? (h : Slots b p a x n) (hr : a.requests.get? i = some r) :
    p i = true ∧ r.size = 1 := by
  have hsize := Fair.sizes_of_get? hr
  rw [h.sizes i] at hsize
  split_ifs at hsize with hi
  exact ⟨hi, (Option.some.inj hsize).symm⟩

/-- Whose last poll was pending has not returned. -/
theorem unfinished (h : Slots b p a x n) (hi : p i = true) :
    (x.history.track i).finished = false := by
  obtain ⟨r, hr, -⟩ := h.exists_request hi
  by_contra hne
  have hnone := (h.models.chronicle.finished i r hr (Bool.not_eq_false _ ▸ hne)).1
  have hsome := h.pending i hi
  rw [hnone] at hsome
  cases hsome

/-- A suspended caller has joined the queue. -/
theorem queued (h : Slots b p a x n) (hi : p i = true) (hr : a.requests.get? i = some r) :
    r.queued = true := by
  refine (h.models.chronicle.unfinished i r hr ?_ (h.unfinished hi)).1
  refine Nat.pos_of_ne_zero fun h0 => ?_
  have hsome := h.pending i hi
  rw [(h.models.chronicle.fresh i r hr h0).2.2] at hsome
  cases hsome

/-- What a request of one permit holds. -/
theorem held_eq (h : Slots b p a x n) (hi : p i = true) (hr : a.requests.get? i = some r) :
    r.held = if r.need = 0 then 1 else 0 := by
  have hle := h.models.sound.need_le i r hr
  rw [(h.suspended_of_get? hr).2] at hle
  have h1 : (1 : UInt32).toNat = 1 := rfl
  rw [Request.held, if_pos (h.queued hi hr), (h.suspended_of_get? hr).2]
  split_ifs <;> omega

/-! ### Who has been assigned a permit -/

/-- Whoever has been assigned its permit, as the memory of the futures shows it. -/
theorem served_iff (h : Slots b p a x n) (hi : p i = true) :
    ((x.inner.acquires.get? i).any fun q => q.queued && q.node.state == 0) = true ↔
      a.need i = 0 := by
  obtain ⟨r, hr, -⟩ := h.exists_request hi
  have hqueued := h.queued hi hr
  obtain ⟨q, hq, rfl⟩ := h.models.refines.get? hr
  have hqd : q.queued = true := hqueued
  rw [hq, Option.any_some, hqd, Bool.true_and, beq_iff_eq, Fair.need_of_get? hr]
  rfl

/-- It holds its permit. -/
theorem inside_of_served (h : Slots b p a x n) (hi : p i = true) (hneed : a.need i = 0) :
    a.inside = a.available + 1 + (a.requests.erase i).sum Request.held := by
  obtain ⟨r, hr, -⟩ := h.exists_request hi
  rw [Fair.need_of_get? hr] at hneed
  rw [Fair.inside_eq a hr, h.held_eq hi hr, if_pos hneed]

/-- A permit that is inside and not in the counter has been assigned. -/
theorem exists_served (h : Slots b p a x n) (hlt : a.available < a.inside) :
    ∃ i, p i = true ∧ a.need i = 0 := by
  have hsum : a.requests.sum Request.held ≠ 0 := by
    rw [Fair.inside] at hlt
    omega
  obtain ⟨i, hi, hne⟩ := Finset.exists_ne_zero_of_sum_ne_zero hsum
  obtain ⟨r, hr⟩ := Store.exists_get?_of_mem hi
  obtain ⟨hp, -⟩ := h.suspended_of_get? hr
  rw [hr, Option.elim_some, h.held_eq hp hr] at hne
  refine ⟨i, hp, ?_⟩
  rw [Fair.need_of_get? hr]
  by_contra hneed
  exact hne (if_neg hneed)

/-- When one permit is inside, one caller has it. -/
theorem served_unique (h : Slots b p a x n) (hinside : a.inside ≤ 1) {j : Addr}
    (hi : p i = true) (hneed : a.need i = 0) (hj : p j = true) (hneed' : a.need j = 0) :
    j = i := by
  by_contra hne
  obtain ⟨r, hr, -⟩ := h.exists_request hj
  have hbalance := h.inside_of_served hi hneed
  have hr' : (a.requests.erase i).get? j = some r := by rw [Store.get?_erase_of_ne _ hne, hr]
  rw [Store.sum_eq_add_erase _ _ _ _ hr', h.held_eq hj hr,
    if_pos (Fair.need_of_get? hr ▸ hneed')] at hbalance
  omega

/-- Who has not been assigned a permit waits for one, while the semaphore is open. -/
theorem mem_waiting (h : Slots b p a x n) (hopen : a.closed = false) (hi : p i = true)
    (hneed : a.need i ≠ 0) : i ∈ a.waiting := by
  obtain ⟨r, hr, -⟩ := h.exists_request hi
  rw [Fair.need_of_get? hr] at hneed
  exact (h.models.sound.mem_waiting i).mpr
    ⟨hopen, r, hr, h.queued hi hr, Nat.pos_of_ne_zero hneed⟩

/-- Who has been assigned one does not. -/
theorem not_mem_waiting (h : Slots b p a x n) (hi : p i = true) (hneed : a.need i = 0) :
    i ∉ a.waiting := by
  obtain ⟨r, hr, -⟩ := h.exists_request hi
  rw [Fair.need_of_get? hr] at hneed
  exact h.models.sound.not_mem_of_served hr hneed

/-- Who does not wait any more has been woken since its last poll. -/
theorem woken (h : Slots b p a x n) (hi : p i = true) (hn : i ∉ a.waiting) :
    ∃ w m, (x.history.track i).pending = some (w, m) ∧
      ∃ w' ∈ (wakesOf i x.inner.woken).drop m, Waker.task w' = Waker.task w := by
  obtain ⟨r, hr, -⟩ := h.exists_request hi
  obtain ⟨⟨w, m⟩, hp⟩ := Option.isSome_iff_exists.mp (h.pending i hi)
  obtain ⟨w', hw', htask⟩ := h.models.chronicle.notified i r hr hn w m hp
  have hwoken := h.models.refines.woken i
  rw [List.reverse_nil, List.append_nil] at hwoken
  refine ⟨w, m, hp, w', ?_, htask⟩
  rw [hwoken, hw']
  exact List.mem_singleton_self w'

/-- Who waits was polled first before everybody who came later and has been served. -/
theorem first_come (h : Slots b p a x n) {j : Addr} (hi : p i = true) (hn : i ∉ a.waiting)
    (hj : j ∈ a.waiting) :
    (x.history.track i).firstPoll ≤ (x.history.track j).firstPoll := by
  obtain ⟨r, hr, hsize⟩ := h.exists_request hi
  by_contra hlt
  refine hn (h.models.chronicle.first_come j hj i r hr ?_ (Nat.lt_of_not_le hlt))
  rw [hsize]
  exact Nat.one_pos

/-! ### Giving permits back, and closing -/

/-- **Giving permits back.** -/
theorem release (h : Slots b p a x (n + k)) (hb : b ≤ Inner.maxPermits P) :
    ∃ y, x.release k = .ok y ∧ Slots b p (a.release k) y n := by
  have hinside := h.inside
  obtain ⟨y, hres, hy, hhist⟩ := h.models.release (n := k) (by omega)
  refine ⟨y, hres, hy, ?_, fun i => ?_, ?_⟩
  · rw [Fair.inside_release h.models.sound]
    omega
  · rw [Fair.sizes_release, h.sizes]
  · rw [hhist]
    exact h.pending

theorem close (h : Slots b p a x n) : ∃ y, x.close = .ok y ∧ Slots b p a.close y n := by
  obtain ⟨y, hres, hy, hhist⟩ := h.models.close
  refine ⟨y, hres, hy, ?_, fun i => ?_, ?_⟩
  · rw [Fair.inside_close]
    exact h.inside
  · rw [Fair.sizes_close, h.sizes]
  · rw [hhist]
    exact h.pending

/-- **Trying to take one permit** out. -/
theorem tryAcquire (h : Slots b p a x n) (hb : b ≤ Inner.maxPermits P) :
    ∃ y, x.tryAcquire 1 = .ok ((a.tryAcquire 1).1, y) ∧
      Slots b p (a.tryAcquire 1).2 y (if (a.tryAcquire 1).1 = .ok () then n + 1 else n) := by
  have hinside := h.inside
  obtain ⟨y, hres, hy, hhist⟩ := h.models.tryAcquire (one_le_maxPermits P) (by omega)
  refine ⟨y, hres, hy, ?_, fun i => ?_, ?_⟩
  · split_ifs with hok
    · have hmoved := Fair.inside_tryAcquire_ok hok
      have h1 : (1 : UInt32).toNat = 1 := rfl
      omega
    · cases he : (a.tryAcquire 1).1 with
      | ok u => exact absurd he hok
      | error e =>
        rw [Fair.tryAcquire_error he]
        exact hinside
  · rw [Fair.sizes_tryAcquire, h.sizes]
  · rw [hhist]
    exact h.pending

/-! ### Awaiting a permit -/

/-- The state of the semaphore while the future at `i` asks for its permit: the other futures are
those of the callers `p`. -/
structure Asking (b : ℕ) (p : Addr → Bool) (i : Addr) (a : Fair W) (x : Tracked P W) (n : ℕ) :
    Prop where
  models : x.Models a
  inside : a.inside + n = b
  sizes : ∀ j, a.sizes.get? j = if suspend p i j then some 1 else none
  pending : ∀ j, j ≠ i → p j = true → (x.history.track j).pending.isSome = true
  unfinished : (x.history.track i).finished = false

/-- The future of a first poll. -/
theorem first (h : Slots b p a x n) (hi : p i = false) :
    Asking b p i (a.acquire i 1) (x.acquire i 1) n := by
  have hnone : a.requests.get? i = none := by
    cases hr : a.requests.get? i with
    | none => rfl
    | some r =>
      rw [(h.suspended_of_get? hr).1] at hi
      cases hi
  refine ⟨h.models.acquire hnone ?_, ?_, fun j => ?_, fun j hj hp => ?_, ?_⟩
  · have hbits : 2 ^ 16 ≤ 2 ^ P.bits := Nat.pow_le_pow_right (by decide) P.le_bits
    have h1 : (1 : UInt32).toNat = 1 := rfl
    omega
  · rw [Fair.inside_acquire hnone]
    exact h.inside
  · rw [Fair.sizes_acquire, Store.get?_insert, h.sizes j]
    by_cases hj : j = i
    · simp [suspend, hj]
    · simp [suspend, hj]
  · show ((x.history.acquire i).track j).pending.isSome = true
    rw [x.history.track_acquire_of_ne hj]
    exact h.pending j hp
  · show ((x.history.acquire i).track i).finished = false
    rw [x.history.track_acquire_self]
    rfl

/-- The future of a later poll. -/
theorem again (h : Slots b p a x n) (hi : p i = true) : Asking b p i a x n where
  models := h.models
  inside := h.inside
  sizes j := by
    rw [h.sizes j]
    by_cases hj : j = i
    · subst hj
      simp [suspend, hi]
    · simp [suspend, hj]
  pending j _ hp := h.pending j hp
  unfinished := h.unfinished hi

/-- A poll that returns `Pending` suspends the caller. -/
theorem Asking.pending_spec (h : Asking b p i a x n) (hb : b ≤ Inner.maxPermits P) {cx : W}
    (hpoll : (a.poll i cx).1 = .pending) :
    ∃ y, x.poll i cx = .ok (.pending, y) ∧ Slots b (suspend p i) (a.poll i cx).2 y n := by
  have hinside := h.inside
  obtain ⟨r, hr, -⟩ : ∃ r, a.requests.get? i = some r ∧ r.size = 1 :=
    Fair.exists_of_sizes (by rw [h.sizes i]; simp [suspend])
  obtain ⟨y, hres, hy, hhist⟩ := h.models.poll hr h.unfinished (by omega) cx
  have hbalance := Fair.inside_poll cx hr (h.models.need_eq hr h.unfinished)
  refine ⟨y, hpoll ▸ hres, hy, ?_, fun j => ?_, fun j hj => ?_⟩
  · rw [hpoll, if_neg (by simp), Nat.add_zero] at hbalance
    rw [hbalance]
    exact hinside
  · rw [Fair.sizes_poll, h.sizes j]
  · by_cases hji : j = i
    · subst hji
      rw [hhist, hpoll, x.history.track_poll_self]
      rfl
    · rw [hhist, x.history.track_poll_of_ne hji]
      exact h.pending j hji (by simpa [suspend, hji] using hj)

/-- A poll that returns `Ready`, and the drop of the future after it. -/
theorem Asking.ready_spec (h : Asking b p i a x n) (hb : b ≤ Inner.maxPermits P) {cx : W}
    {e : Except AcquireError Unit} (hpoll : (a.poll i cx).1 = .ready e) :
    ∃ y z, x.poll i cx = .ok (.ready e, y) ∧ y.drop i = .ok z ∧
      Slots b (resumed p i) ((a.poll i cx).2.cancel i) z (if a.closed then n else n + 1) := by
  have hinside := h.inside
  have hclosed := Fair.closed_of_poll_ready hpoll
  obtain ⟨r, hr, hsize⟩ : ∃ r, a.requests.get? i = some r ∧ r.size = 1 :=
    Fair.exists_of_sizes (by rw [h.sizes i]; simp [suspend])
  obtain ⟨y, hres, hy, hhist⟩ := h.models.poll hr h.unfinished (by omega) cx
  have hbalance := Fair.inside_poll cx hr (h.models.need_eq hr h.unfinished)
  obtain ⟨r', hr', -⟩ : ∃ r, (a.poll i cx).2.requests.get? i = some r ∧ r.size = 1 :=
    Fair.exists_of_sizes (by rw [Fair.sizes_poll, h.sizes i]; simp [suspend])
  obtain ⟨z, hdrop, hz, hhist'⟩ := hy.drop hr' (by omega)
  refine ⟨y, z, hpoll ▸ hres, hdrop, hz, ?_, fun j => ?_, fun j hj => ?_⟩
  · rw [Fair.inside_cancel hy.sound hr']
    rw [hpoll, hsize] at hbalance
    have h1 : (1 : UInt32).toNat = 1 := rfl
    by_cases hc : a.closed = true
    · rw [hclosed.mp hc, if_neg (by simp)] at hbalance
      rw [if_pos hc]
      omega
    · have hok : e = .ok () := by
        cases e with
        | ok u => rfl
        | error e =>
          cases e
          exact absurd (hclosed.mpr rfl) hc
      rw [hok, if_pos rfl] at hbalance
      rw [if_neg hc]
      omega
  · rw [Fair.sizes_cancel, Store.get?_erase, Fair.sizes_poll, h.sizes j]
    by_cases hji : j = i
    · simp [resumed, hji]
    · simp [resumed, suspend, hji]
  · obtain ⟨hp, hji⟩ : p j = true ∧ j ≠ i := by simpa [resumed] using hj
    rw [hhist', hhist, x.history.track_poll_of_ne hji]
    exact h.pending j hji hp

/-- Awaiting leaves the closed flag alone. -/
theorem closed_awaitOne (a : Fair W) (i : Addr) (first : Bool) (cx : W) :
    (a.awaitOne i first cx).2.closed = a.closed := by
  obtain ⟨a₁, ha₁⟩ : ∃ a₁, a₁ = if first then a.acquire i 1 else a := ⟨_, rfl⟩
  have hclosed : a₁.closed = a.closed := by
    subst ha₁
    split_ifs <;> rfl
  rw [Fair.awaitOne, ← ha₁, ← hclosed, ← Fair.closed_poll a₁ i cx]
  generalize a₁.poll i cx = pa
  obtain ⟨_ | _, c⟩ := pa
  · exact Fair.closed_cancel c i
  · rfl

/-- **Awaiting a permit.** While the future is pending, and when it ends with an error because the
semaphore is closed, the permits stay where they are; otherwise one goes out. -/
theorem awaitOne (h : Slots b p a x n) (hb : b ≤ Inner.maxPermits P) {first : Bool}
    (hi : p i = !first) (cx : W) :
    ∃ y, x.awaitOne i first cx = .ok ((a.awaitOne i first cx).1, y) ∧
      match (a.awaitOne i first cx).1 with
      | .pending => Slots b (suspend p i) (a.awaitOne i first cx).2 y n
      | .ready e => (a.closed = true ↔ e = .error .closed) ∧
          Slots b (resumed p i) (a.awaitOne i first cx).2 y (if a.closed then n else n + 1) := by
  obtain ⟨a₁, ha₁⟩ : ∃ a₁, a₁ = if first then a.acquire i 1 else a := ⟨_, rfl⟩
  obtain ⟨x₁, hx₁⟩ : ∃ x₁, x₁ = if first then x.acquire i 1 else x := ⟨_, rfl⟩
  have hask : Asking b p i a₁ x₁ n := by
    subst ha₁ hx₁
    cases first with
    | true => exact h.first hi
    | false => exact h.again hi
  have hclosed : a₁.closed = a.closed := by
    subst ha₁
    split_ifs <;> rfl
  unfold Fair.awaitOne Tracked.awaitOne
  rw [← ha₁, ← hx₁]
  cases hpoll : (a₁.poll i cx).1 with
  | pending =>
    obtain ⟨y, hres, hslots⟩ := hask.pending_spec hb hpoll
    rw [hres, show a₁.poll i cx = (.pending, (a₁.poll i cx).2) from Prod.ext hpoll rfl]
    exact ⟨y, rfl, hslots⟩
  | ready e =>
    obtain ⟨y, z, hres, hdrop, hslots⟩ := hask.ready_spec hb hpoll
    have he := Fair.closed_of_poll_ready hpoll
    rw [hclosed] at hslots he
    rw [hres, show a₁.poll i cx = (.ready e, (a₁.poll i cx).2) from Prod.ext hpoll rfl]
    refine ⟨z, ?_, he, hslots⟩
    simp only [ok_bind, hdrop]
    rfl

/-- Awaiting a permit leads to the abstract result. -/
theorem awaitOne_models (h : Slots b p a x n) (hb : b ≤ Inner.maxPermits P) {first : Bool}
    (hi : p i = !first) (cx : W) :
    ∃ y, x.awaitOne i first cx = .ok ((a.awaitOne i first cx).1, y) ∧
      y.Models (a.awaitOne i first cx).2 := by
  obtain ⟨y, hres, hy⟩ := h.awaitOne hb hi cx
  refine ⟨y, hres, ?_⟩
  generalize a.awaitOne i first cx = pa at hy
  obtain ⟨_ | _, c⟩ := pa
  · exact hy.2.models
  · exact hy.models

/-- **Awaiting a permit does not disturb the others**: the future has nothing left to give back when
it is dropped, and who waits on has not been served. -/
theorem awaitOne_undisturbed (h : Slots b p a x n) {first : Bool} (hi : p i = !first) (cx : W) :
    a.Undisturbed i (a.awaitOne i first cx).2 := by
  obtain ⟨a₁, ha₁⟩ : ∃ a₁, a₁ = if first then a.acquire i 1 else a := ⟨_, rfl⟩
  obtain ⟨x₁, hask⟩ : ∃ x₁ : Tracked P W, Asking b p i a₁ x₁ n := by
    subst ha₁
    cases first with
    | true => exact ⟨_, h.first hi⟩
    | false => exact ⟨_, h.again hi⟩
  obtain ⟨r, hr, -⟩ : ∃ r, a₁.requests.get? i = some r ∧ r.size = 1 :=
    Fair.exists_of_sizes (by rw [hask.sizes i]; simp [suspend])
  have hnew := hask.models.need_eq hr hask.unfinished
  suffices hpoll : a₁.Undisturbed i (match a₁.poll i cx with
      | (.pending, a) => ((.pending, a) : Poll (Except AcquireError Unit) × Fair W)
      | (.ready r, a) => (.ready r, a.cancel i)).2 by
    rw [Fair.awaitOne, ← ha₁]
    subst ha₁
    refine ⟨hpoll.woken.trans (by split_ifs <;> rfl), fun j hj => (hpoll.others j hj).trans ?_,
      hpoll.unserved⟩
    split_ifs
    · exact Store.get?_insert_of_ne _ _ hj
    · rfl
  have hsound : (a₁.poll i cx).2.Sound := hask.models.sound.poll hr hnew
  have hpolled := Fair.polled cx hr
  generalize a₁.poll i cx = pa at hpolled hsound
  cases hpolled with
  | closed hc => exact Fair.cancel_undisturbed_of_nil i (hsound.waiting_of_closed hc)
  | collected _ _ _ =>
    have hself : (a₁.collect i).requests.get? i = some { r with queued := false } := by
      simp [Fair.collect, hr]
    have hcancel := hsound.cancel_undisturbed hself rfl
    exact ⟨hcancel.woken, fun j hj => (hcancel.others j hj).trans (Store.get?_modify_of_ne _ _ hj),
      hcancel.unserved⟩
  | waiting _ _ hpos =>
    refine ⟨rfl, fun j hj => Store.get?_modify_of_ne _ _ hj, fun r' hr' => ?_⟩
    rw [← Store.eq_of_get?_modify_self hr hr', Request.need_register]
    omega
  | taken _ hqueued _ =>
    have hheld : r.held = 0 := by simp [Request.held, hqueued]
    have hcancel := hsound.cancel_undisturbed (show (a₁.take _).requests.get? i = some r from hr)
      hheld
    exact ⟨hcancel.woken, hcancel.others, hcancel.unserved⟩
  | enqueued _ hqueued hlt =>
    refine ⟨rfl, fun j hj => Store.get?_modify_of_ne _ _ hj, fun r' hr' => ?_⟩
    have hneed := hnew hqueued
    rw [← Store.eq_of_get?_modify_self hr hr', Request.need_register]
    show r.need - a₁.available ≠ 0
    omega

/-- A first poll that finds a permit takes it. -/
theorem awaitOne_taken (h : Slots b p a x n) (hi : p i = false) (hopen : a.closed = false)
    (hpos : 0 < a.available) (cx : W) :
    (a.awaitOne i true cx).1 = .ready (.ok ()) ∧
      (a.awaitOne i true cx).2.available = a.available - 1 := by
  have hask := h.first hi
  have hget : (a.acquire i 1).requests.get? i = some (Request.new 1) := Store.get?_insert_self _ _ _
  have hsound : ((a.acquire i 1).poll i cx).2.Sound :=
    hask.models.sound.poll hget (hask.models.need_eq hget hask.unfinished)
  have hpolled := Fair.polled cx hget
  rw [Fair.awaitOne, if_pos rfl]
  generalize (a.acquire i 1).poll i cx = pa at hpolled hsound
  cases hpolled with
  | closed hc =>
    rw [show a.closed = true from hc] at hopen
    cases hopen
  | collected _ hqueued _ => cases hqueued
  | waiting _ hqueued _ => cases hqueued
  | taken _ _ _ =>
    exact ⟨rfl, congrArg Fair.available (hsound.cancel_of_held (r := Request.new 1) hget rfl)⟩
  | enqueued _ _ hlt =>
    have hlt' : a.available < 1 := hlt
    omega

/-- A first poll that finds none joins the queue. -/
theorem awaitOne_queues (hopen : a.closed = false) (hzero : a.available = 0) (i : Addr) (cx : W) :
    (a.awaitOne i true cx).2.waiting = a.waiting ++ [i] := by
  have hget : (a.acquire i 1).requests.get? i = some (Request.new 1) := Store.get?_insert_self _ _ _
  have hpolled := Fair.polled cx hget
  rw [Fair.awaitOne, if_pos rfl]
  generalize (a.acquire i 1).poll i cx = pa at hpolled
  cases hpolled with
  | closed hc =>
    rw [show a.closed = true from hc] at hopen
    cases hopen
  | collected _ hqueued _ => cases hqueued
  | waiting _ hqueued _ => cases hqueued
  | taken _ _ hle =>
    have hle' : 1 ≤ a.available := hle
    omega
  | enqueued => rfl

/-- Awaiting a permit of a closed semaphore. -/
theorem awaitOne_closed (hclosed : a.closed = true) (i : Addr) (cx : W) :
    (a.awaitOne i true cx).1 = .ready (.error .closed) := by
  have hget : (a.acquire i 1).requests.get? i = some (Request.new 1) := Store.get?_insert_self _ _ _
  rw [Fair.awaitOne, if_pos rfl, Fair.poll, hget]
  simp only
  rw [if_pos (show (a.acquire i 1).closed = true from hclosed)]

/-- When nobody is suspended, and a permit is inside, awaiting one returns at once. -/
theorem awaitOne_first (h : Slots b (fun _ => false) a x n) (hroom : a.closed = false → n < b)
    (i : Addr) (cx : W) :
    (a.awaitOne i true cx).1 = .ready (if a.closed then .error .closed else .ok ()) := by
  have hinside := h.inside
  have havailable : a.inside ≤ a.available := by
    by_contra hlt
    obtain ⟨j, hj, -⟩ := h.exists_served (Nat.lt_of_not_le hlt)
    cases hj
  split_ifs with hclosed
  · exact awaitOne_closed hclosed i cx
  · have hopen : a.closed = false := Bool.eq_false_iff.mpr hclosed
    have hn := hroom hopen
    exact (h.awaitOne_taken rfl hopen (by omega) cx).1

/-- **Dropping a suspended caller** gives its permit back, if it has one. -/
theorem drop (h : Slots b p a x n) (hb : b ≤ Inner.maxPermits P) (hi : p i = true) :
    ∃ y, x.drop i = .ok y ∧ Slots b (resumed p i) (a.cancel i) y n := by
  have hinside := h.inside
  obtain ⟨r, hr, -⟩ := h.exists_request hi
  obtain ⟨y, hres, hy, hhist⟩ := h.models.drop hr (by omega)
  refine ⟨y, hres, hy, ?_, fun j => ?_, fun j hj => ?_⟩
  · rw [Fair.inside_cancel h.models.sound hr]
    exact hinside
  · rw [Fair.sizes_cancel, Store.get?_erase, h.sizes j]
    by_cases hji : j = i
    · simp [resumed, hji]
    · simp [resumed, hji]
  · obtain ⟨hp, -⟩ : p j = true ∧ j ≠ i := by simpa [resumed] using hj
    rw [hhist]
    exact h.pending j hp

end Slots

end LocalSync.Semaphore
