/-
  What the history of a semaphore says about its state.

  `Chronicle a h` relates the abstract semaphore to the history of its
  clients: the queue is in the order of first polls, nobody who came later is
  served before somebody who still waits, and the wakers of pending polls are
  either registered or have been woken, once.  Every operation of `Fair`
  preserves it.

  `Tracked.Models x a` puts the layers together: `x` refines `a`, `a` is sound,
  and the history fits.  Its operation theorems are what the systems built on
  the semaphore use; they never look at `Inner` again.
-/
import LocalSync.Semaphore.History
import LocalSync.Equiv.Acquire

namespace LocalSync.Semaphore

open Lib

variable {P : PointerWidth} {W : Type} [Waker W]

/-- **The chronicle**: how the history of the clients shows in the abstract state. -/
structure Chronicle (a : Fair W) (h : History W) : Prop where
  clock_pos : 0 < h.clock
  /-- The clock is ahead of all first polls. -/
  before : ∀ i r, a.requests.get? i = some r → (h.track i).firstPoll < h.clock
  /-- A future that was never polled has not joined the queue. -/
  fresh : ∀ i r, a.requests.get? i = some r → (h.track i).firstPoll = 0 →
    r.queued = false ∧ r.need = r.size.toNat ∧ h.track i = Track.new
  /-- A future that was polled and has not returned has joined the queue. -/
  unfinished : ∀ i r, a.requests.get? i = some r → 0 < (h.track i).firstPoll →
    (h.track i).finished = false → r.queued = true ∧ (h.track i).pending.isSome = true
  /-- A future that returned is done with the queue. -/
  finished : ∀ i r, a.requests.get? i = some r → (h.track i).finished = true →
    (h.track i).pending = none ∧ (r.queued = false ∨ a.closed = true)
  /-- The queue is in the order of first polls. -/
  order : a.waiting.Pairwise fun i j => (h.track i).firstPoll < (h.track j).firstPoll
  /-- As long as somebody waits, everybody who came later and asked for permits waits too. -/
  first_come : ∀ i ∈ a.waiting, ∀ j r, a.requests.get? j = some r → 0 < r.size.toNat →
    (h.track i).firstPoll < (h.track j).firstPoll → j ∈ a.waiting
  /-- The waker of a pending poll is registered while the future waits. -/
  registered : ∀ i ∈ a.waiting, ∀ w m, (h.track i).pending = some (w, m) →
    (∃ w', a.waker i = some w' ∧ Waker.task w' = Waker.task w) ∧ (a.woken i).length = m
  /-- Once it does not wait any more, exactly one waker has been woken since that poll, and it
  wakes the same task. -/
  notified : ∀ i r, a.requests.get? i = some r → i ∉ a.waiting → ∀ w m,
    (h.track i).pending = some (w, m) →
    ∃ w', (a.woken i).drop m = [w'] ∧ Waker.task w' = Waker.task w

/-- The part of the chronicle about each future by itself. -/
structure Clients (a : Fair W) (h : History W) : Prop where
  before : ∀ i r, a.requests.get? i = some r → (h.track i).firstPoll < h.clock
  fresh : ∀ i r, a.requests.get? i = some r → (h.track i).firstPoll = 0 →
    r.queued = false ∧ r.need = r.size.toNat ∧ h.track i = Track.new
  unfinished : ∀ i r, a.requests.get? i = some r → 0 < (h.track i).firstPoll →
    (h.track i).finished = false → r.queued = true ∧ (h.track i).pending.isSome = true
  finished : ∀ i r, a.requests.get? i = some r → (h.track i).finished = true →
    (h.track i).pending = none ∧ (r.queued = false ∨ a.closed = true)

namespace Clients

variable {a b : Fair W} {h : History W} {i : Addr} {r : Request W}

omit [Waker W] in
/-- A step that nobody's history sees, and that leaves everybody's queue flag alone. -/
theorem congr (hc : Clients a h) (hcl : a.closed = true → b.closed = true)
    (hget : ∀ j r', b.requests.get? j = some r' →
      ∃ r, a.requests.get? j = some r ∧ r'.queued = r.queued ∧ r'.size = r.size ∧
        ((h.track j).firstPoll = 0 → r'.need = r.need)) : Clients b h := by
  constructor
  · intro j r' hr'
    obtain ⟨r, hr, -⟩ := hget j r' hr'
    exact hc.before j r hr
  · intro j r' hr' h0
    obtain ⟨r, hr, hq, hs, hn⟩ := hget j r' hr'
    rw [hq, hs, hn h0]
    exact hc.fresh j r hr h0
  · intro j r' hr' hp hf
    obtain ⟨r, hr, hq, -⟩ := hget j r' hr'
    rw [hq]
    exact hc.unfinished j r hr hp hf
  · intro j r' hr' hf
    obtain ⟨r, hr, hq, -⟩ := hget j r' hr'
    rw [hq]
    exact (hc.finished j r hr hf).imp_right (Or.imp_right hcl)

omit [Waker W] in
/-- A future is created at the free address `i`. -/
theorem acquire (hc : Clients a h) (hpos : 0 < h.clock) (i : Addr) (n : UInt32) :
    Clients (a.acquire i n) (h.acquire i) := by
  have hself : (h.acquire i).track i = Track.new := h.track_acquire_self i
  have hcases : ∀ j r, (a.acquire i n).requests.get? j = some r → j = i ∧ r = Request.new n ∨
      j ≠ i ∧ a.requests.get? j = some r ∧ (h.acquire i).track j = h.track j := by
    intro j r hr
    rw [Fair.acquire, Store.get?_insert] at hr
    split_ifs at hr with hj
    · exact Or.inl ⟨hj, (Option.some.inj hr).symm⟩
    · exact Or.inr ⟨hj, hr, h.track_acquire_of_ne hj⟩
  constructor
  · intro j r hr
    rcases hcases j r hr with ⟨rfl, -⟩ | ⟨-, hr₀, ht⟩
    · rw [hself]
      exact hpos
    · rw [ht]
      exact hc.before j r hr₀
  · intro j r hr h0
    rcases hcases j r hr with ⟨rfl, rfl⟩ | ⟨-, hr₀, ht⟩
    · exact ⟨rfl, rfl, hself⟩
    · rw [ht] at h0 ⊢
      exact hc.fresh j r hr₀ h0
  · intro j r hr hp hf
    rcases hcases j r hr with ⟨rfl, -⟩ | ⟨-, hr₀, ht⟩
    · rw [hself] at hp
      exact absurd hp (Nat.lt_irrefl 0)
    · rw [ht] at hp hf ⊢
      exact hc.unfinished j r hr₀ hp hf
  · intro j r hr hf
    rcases hcases j r hr with ⟨rfl, -⟩ | ⟨-, hr₀, ht⟩
    · rw [hself] at hf
      cases hf
    · rw [ht] at hf ⊢
      exact hc.finished j r hr₀ hf

omit [Waker W] in
/-- A poll of the future at `i`, which changes nothing but its request. -/
theorem poll (hc : Clients a h) (hpos : 0 < h.clock) (hr : a.requests.get? i = some r)
    (f : Request W → Request W) (hreq : b.requests = a.requests.modify i f)
    (hcl : b.closed = a.closed) (cx : W) (m : ℕ) (pending : Bool)
    (hpending : pending = true → (f r).queued = true)
    (hdone : pending = false → (f r).queued = false ∨ a.closed = true) :
    Clients b (h.poll i cx m pending) := by
  have hself := h.track_poll_self i cx m pending
  have hfirst : 0 < ((h.poll i cx m pending).track i).firstPoll ∧
      ((h.poll i cx m pending).track i).firstPoll < h.clock + 1 := by
    have hlt := hc.before i r hr
    rw [hself]
    dsimp only
    split_ifs <;> omega
  have hcases : ∀ j r', b.requests.get? j = some r' → j = i ∧ r' = f r ∨
      j ≠ i ∧ a.requests.get? j = some r' ∧ (h.poll i cx m pending).track j = h.track j := by
    intro j r' hr'
    rw [hreq] at hr'
    by_cases hj : j = i
    · subst hj
      rw [Store.get?_modify_self, hr] at hr'
      exact Or.inl ⟨rfl, (Option.some.inj hr').symm⟩
    · rw [Store.get?_modify_of_ne _ _ hj] at hr'
      exact Or.inr ⟨hj, hr', h.track_poll_of_ne hj cx m pending⟩
  constructor
  · intro j r' hr'
    rcases hcases j r' hr' with ⟨rfl, -⟩ | ⟨-, hr₀, ht⟩
    · exact hfirst.2
    · rw [ht]
      exact Nat.lt_succ_of_lt (hc.before j r' hr₀)
  · intro j r' hr' h0
    rcases hcases j r' hr' with ⟨rfl, -⟩ | ⟨-, hr₀, ht⟩
    · omega
    · rw [ht] at h0 ⊢
      exact hc.fresh j r' hr₀ h0
  · intro j r' hr' hp hf
    rcases hcases j r' hr' with ⟨rfl, rfl⟩ | ⟨-, hr₀, ht⟩
    · rw [hself] at hf ⊢
      obtain rfl : pending = true := by simpa using hf
      exact ⟨hpending rfl, rfl⟩
    · rw [ht] at hp hf ⊢
      exact hc.unfinished j r' hr₀ hp hf
  · intro j r' hr' hf
    rw [hcl]
    rcases hcases j r' hr' with ⟨rfl, rfl⟩ | ⟨-, hr₀, ht⟩
    · rw [hself] at hf ⊢
      obtain rfl : pending = false := by simpa using hf
      exact ⟨rfl, hdone rfl⟩
    · rw [ht] at hf ⊢
      exact hc.finished j r' hr₀ hf

end Clients

namespace Chronicle

variable {a : Fair W} {h : History W} {i : Addr} {r : Request W} {n : ℕ} {q : List Addr}

theorem clients (hc : Chronicle a h) : Clients a h :=
  ⟨hc.before, hc.fresh, hc.unfinished, hc.finished⟩

theorem new (W : Type) [Waker W] (n : ℕ) : Chronicle (Fair.new W n) (History.new W) where
  clock_pos := Nat.one_pos
  before i r hr := by simp [Fair.new] at hr
  fresh i r hr := by simp [Fair.new] at hr
  unfinished i r hr := by simp [Fair.new] at hr
  finished i r hr := by simp [Fair.new] at hr
  order := List.Pairwise.nil
  first_come i hi := absurd hi (by simp [Fair.new])
  registered i hi := absurd hi (by simp [Fair.new])
  notified i r hr := by simp [Fair.new] at hr

/-- Who waits has been polled. -/
theorem polled_of_mem (hc : Chronicle a h) (ha : a.Sound) (hi : i ∈ a.waiting) :
    0 < (h.track i).firstPoll := by
  obtain ⟨r, hr, hq, -⟩ := ha.exists_of_mem hi
  refine Nat.pos_of_ne_zero fun h0 => ?_
  rw [(hc.fresh i r hr h0).1] at hq
  cases hq

/-! ### Serving the queue -/

/-- Serving the oldest request. -/
theorem wakeUp (hc : Chronicle a h) (ha : a.Sound) (hq : a.waiting = i :: q) (n : ℕ) :
    Chronicle (a.wakeUp i n) h := by
  have hi : i ∉ q := (List.nodup_cons.mp (hq ▸ ha.nodup)).1
  have hmem : i ∈ a.waiting := by simp [hq]
  have hw : (a.wakeUp i n).waiting = q := by simp [Fair.wakeUp, hq]
  have hpolled := hc.polled_of_mem ha hmem
  have horder : (∀ j ∈ q, (h.track i).firstPoll < (h.track j).firstPoll) ∧ _ :=
    List.pairwise_cons.mp (hq ▸ hc.order)
  have hget : ∀ j r', (a.wakeUp i n).requests.get? j = some r' →
      ∃ r, a.requests.get? j = some r ∧ r'.queued = r.queued ∧ r'.size = r.size ∧
        (j ≠ i → r' = r) := by
    intro j r' hr'
    obtain ⟨r, hr, rfl⟩ := Store.exists_of_get?_modify hr'
    refine ⟨r, hr, ?_, ?_, fun hj => if_neg hj⟩ <;> split_ifs <;> rfl
  have hclients : Clients (a.wakeUp i n) h := hc.clients.congr id fun j r' hr' => by
    obtain ⟨r, hr, hqd, hsz, heq⟩ := hget j r' hr'
    refine ⟨r, hr, hqd, hsz, fun h0 => ?_⟩
    rw [heq]
    rintro rfl
    omega
  have hwaker : ∀ j, j ≠ i → (a.wakeUp i n).waker j = a.waker j := fun j hj => by
    rw [Fair.waker, Fair.waker, show (a.wakeUp i n).requests.get? j = a.requests.get? j from
      Store.get?_modify_of_ne _ _ hj]
  have hwoken : ∀ j, j ≠ i → (a.wakeUp i n).woken j = a.woken j := fun j hj =>
    Function.update_of_ne hj _ _
  refine ⟨hc.clock_pos, hclients.before, hclients.fresh, hclients.unfinished, hclients.finished,
    ?_, ?_, ?_, ?_⟩
  · rw [hw]
    exact horder.2
  · intro j hj k r' hr' hs hlt
    obtain ⟨r, hr, -, hsz, -⟩ := hget k r' hr'
    rw [hw] at hj ⊢
    have hk : k ∈ i :: q := hq ▸ hc.first_come j (by simp [hq, hj]) k r hr (hsz ▸ hs) hlt
    rcases List.mem_cons.mp hk with rfl | hk
    · have := horder.1 j hj
      omega
    · exact hk
  · intro j hj w m hp
    rw [hw] at hj
    have hji : j ≠ i := ne_of_mem_of_not_mem hj hi
    rw [hwaker j hji, hwoken j hji]
    exact hc.registered j (by simp [hq, hj]) w m hp
  · intro j r' hr' hj w m hp
    obtain ⟨r, hr, -⟩ := hget j r' hr'
    rw [hw] at hj
    by_cases hji : j = i
    · subst hji
      obtain ⟨⟨w', hw', htask⟩, hlen⟩ := hc.registered j hmem w m hp
      refine ⟨w', ?_, htask⟩
      have hlog : (a.wakeUp j n).woken j = a.woken j ++ [w'] := by simp [Fair.wakeUp, hw']
      rw [hlog, ← hlen, List.drop_left]
    · rw [hwoken j hji]
      exact hc.notified j r hr (by simp [hq, hji, hj]) w m hp

/-- Handing permits to somebody who waits. -/
theorem topUp (hc : Chronicle a h) (ha : a.Sound) (hi : i ∈ a.waiting) (n : ℕ) :
    Chronicle (a.topUp i n) h := by
  have hpolled := hc.polled_of_mem ha hi
  have hget : ∀ j r', (a.topUp i n).requests.get? j = some r' →
      ∃ r, a.requests.get? j = some r ∧ r'.queued = r.queued ∧ r'.size = r.size ∧
        (j ≠ i → r' = r) := by
    intro j r' hr'
    obtain ⟨r, hr, rfl⟩ := Store.exists_of_get?_modify hr'
    refine ⟨r, hr, ?_, ?_, fun hj => if_neg hj⟩ <;> split_ifs <;> rfl
  have hclients : Clients (a.topUp i n) h := hc.clients.congr id fun j r' hr' => by
    obtain ⟨r, hr, hqd, hsz, heq⟩ := hget j r' hr'
    refine ⟨r, hr, hqd, hsz, fun h0 => ?_⟩
    rw [heq]
    rintro rfl
    omega
  have hwaker : ∀ j, (a.topUp i n).waker j = a.waker j := by
    intro j
    by_cases hj : j = i
    · subst hj
      cases hr : a.requests.get? j <;> simp [Fair.waker, Fair.topUp, hr]
    · simp [Fair.waker, Fair.topUp, Store.get?_modify, hj]
  refine ⟨hc.clock_pos, hclients.before, hclients.fresh, hclients.unfinished, hclients.finished,
    ?_, ?_, ?_, ?_⟩
  · exact hc.order
  · intro j hj k r' hr' hs hlt
    obtain ⟨r, hr, -, hsz, -⟩ := hget k r' hr'
    exact hc.first_come j hj k r hr (hsz ▸ hs) hlt
  · intro j hj w m hp
    rw [hwaker j]
    exact hc.registered j hj w m hp
  · intro j r' hr' hj w m hp
    obtain ⟨r, hr, -⟩ := hget j r' hr'
    exact hc.notified j r hr hj w m hp

/-- A change of the counter. -/
theorem setAvailable (hc : Chronicle a h) (n : ℕ) :
    Chronicle ({ a with available := n } : Fair W) h :=
  ⟨hc.clock_pos, hc.before, hc.fresh, hc.unfinished, hc.finished, hc.order, hc.first_come,
    hc.registered,
    hc.notified⟩

/-- **The hand-out keeps the chronicle.** -/
theorem handOut (hc : Chronicle a h) (ha : a.Sound) (hq : a.waiting = q) :
    Chronicle (Fair.handOut n q a) h := by
  induction q generalizing a n with
  | nil => exact hc.setAvailable _
  | cons i q ih =>
    rw [Fair.handOut]
    split_ifs
    · exact ih (hc.wakeUp ha hq 0) (ha.wakeUp hq) (by simp [Fair.wakeUp, hq])
    · exact hc.topUp ha (by simp [hq]) n

theorem release (hc : Chronicle a h) (ha : a.Sound) (n : ℕ) : Chronicle (a.release n) h :=
  hc.handOut ha rfl

/-! ### The other operations -/

theorem acquire (hc : Chronicle a h) (ha : a.Sound) (hi : a.requests.get? i = none) (n : UInt32) :
    Chronicle (a.acquire i n) (h.acquire i) := by
  have hmem : ∀ j ∈ a.waiting, j ≠ i := by
    rintro j hj rfl
    obtain ⟨r, hr, -⟩ := ha.exists_of_mem hj
    rw [hi] at hr
    cases hr
  have hself : (h.acquire i).track i = Track.new := h.track_acquire_self i
  have htrack : ∀ j, j ≠ i → (h.acquire i).track j = h.track j := fun j hj =>
    h.track_acquire_of_ne hj
  have hget : ∀ j, j ≠ i → (a.acquire i n).requests.get? j = a.requests.get? j := fun j hj =>
    Store.get?_insert_of_ne _ _ hj
  have hclients := hc.clients.acquire hc.clock_pos i n
  refine ⟨hc.clock_pos, hclients.before, hclients.fresh, hclients.unfinished, hclients.finished,
    ?_, ?_, ?_, ?_⟩
  · refine hc.order.imp_of_mem fun {j k} hj hk hlt => ?_
    rw [htrack j (hmem j hj), htrack k (hmem k hk)]
    exact hlt
  · intro j hj k r hr hs hlt
    rw [htrack j (hmem j hj)] at hlt
    by_cases hk : k = i
    · subst hk
      rw [hself] at hlt
      exact absurd hlt (Nat.not_lt_zero _)
    · rw [htrack k hk] at hlt
      exact hc.first_come j hj k r (hget k hk ▸ hr) hs hlt
  · intro j hj w m hp
    rw [htrack j (hmem j hj)] at hp
    rw [Fair.waker, hget j (hmem j hj)]
    exact hc.registered j hj w m hp
  · intro j r hr hj w m hp
    by_cases hji : j = i
    · subst hji
      rw [hself] at hp
      cases hp
    · rw [htrack j hji] at hp
      exact hc.notified j r (hget j hji ▸ hr) hj w m hp

theorem remove (hc : Chronicle a h) (ha : a.Sound) (i : Addr) : Chronicle (a.remove i) h := by
  have hget : ∀ j, j ≠ i → (a.remove i).requests.get? j = a.requests.get? j := fun j hj =>
    Store.get?_erase_of_ne _ hj
  have hlive : ∀ j r, (a.remove i).requests.get? j = some r →
      j ≠ i ∧ a.requests.get? j = some r := by
    intro j r hr
    have hj : j ≠ i := by
      rintro rfl
      rw [show (a.remove j).requests.get? j = none from Store.get?_erase_self _ _] at hr
      cases hr
    exact ⟨hj, hget j hj ▸ hr⟩
  have hmem : ∀ j, j ∈ (a.remove i).waiting ↔ j ≠ i ∧ j ∈ a.waiting := fun j =>
    ha.nodup.mem_erase_iff
  constructor
  · exact hc.clock_pos
  · exact fun j r hr => hc.before j r (hlive j r hr).2
  · exact fun j r hr => hc.fresh j r (hlive j r hr).2
  · exact fun j r hr => hc.unfinished j r (hlive j r hr).2
  · exact fun j r hr => hc.finished j r (hlive j r hr).2
  · exact hc.order.sublist List.erase_sublist
  · intro j hj k r hr hs hlt
    obtain ⟨hk, hr⟩ := hlive k r hr
    exact (hmem k).mpr ⟨hk, hc.first_come j ((hmem j).mp hj).2 k r hr hs hlt⟩
  · intro j hj w m hp
    obtain ⟨hji, hj⟩ := (hmem j).mp hj
    rw [Fair.waker, hget j hji]
    exact hc.registered j hj w m hp
  · intro j r hr hj w m hp
    obtain ⟨hji, hr⟩ := hlive j r hr
    exact hc.notified j r hr (fun hm => hj ((hmem j).mpr ⟨hji, hm⟩)) w m hp

theorem cancel (hc : Chronicle a h) (ha : a.Sound) (i : Addr) : Chronicle (a.cancel i) h :=
  (hc.remove ha i).release (ha.remove i) _

theorem tryAcquire (hc : Chronicle a h) (n : UInt32) : Chronicle (a.tryAcquire n).2 h := by
  unfold Fair.tryAcquire
  split_ifs
  · exact hc
  · exact hc
  · exact hc.setAvailable _

/-- Closing notifies everybody. -/
theorem close (hc : Chronicle a h) (ha : a.Sound) : Chronicle a.close h := by
  obtain ⟨-, hcl, hw, hwoken, hreq⟩ :=
    Fair.wakeAll_spec (a := { a with closed := true }) rfl ha.nodup
  change a.close.closed = true at hcl
  change a.close.waiting = [] at hw
  change ∀ j, a.close.woken j = if j ∈ a.waiting then a.woken j ++ (a.waker j).toList
    else a.woken j at hwoken
  have hget : ∀ j r', a.close.requests.get? j = some r' →
      ∃ r, a.requests.get? j = some r ∧ r'.queued = r.queued ∧ r'.size = r.size ∧
        ((h.track j).firstPoll = 0 → r'.need = r.need) := by
    intro j r' hr'
    rw [Fair.close, hreq j] at hr'
    split_ifs at hr' with hj
    · obtain ⟨r, hr, rfl⟩ := Option.map_eq_some_iff.mp hr'
      exact ⟨r, hr, rfl, rfl, fun _ => rfl⟩
    · exact ⟨r', hr', rfl, rfl, fun _ => rfl⟩
  have hclients : Clients a.close h := hc.clients.congr (fun _ => hcl) hget
  refine ⟨hc.clock_pos, hclients.before, hclients.fresh, hclients.unfinished, hclients.finished,
    ?_, ?_, ?_, ?_⟩
  · rw [hw]
    exact List.Pairwise.nil
  · intro j hj
    rw [hw] at hj
    cases hj
  · intro j hj
    rw [hw] at hj
    cases hj
  · intro j r' hr' _ w m hp
    obtain ⟨r, hr, -⟩ := hget j r' hr'
    rw [hwoken j]
    by_cases hj : j ∈ a.waiting
    · obtain ⟨⟨w', hw', htask⟩, hlen⟩ := hc.registered j hj w m hp
      refine ⟨w', ?_, htask⟩
      rw [if_pos hj, hw', ← hlen, List.drop_left]
      rfl
    · rw [if_neg hj]
      exact hc.notified j r hr hj w m hp

/-! ### Polls -/

section Poll

variable {cx : W}

/-- Who has not returned and has not queued has never been polled. -/
theorem firstPoll_eq_zero (hc : Chronicle a h) (hr : a.requests.get? i = some r)
    (hu : (h.track i).finished = false) (hq : r.queued = false) : (h.track i).firstPoll = 0 := by
  by_contra h0
  rw [(hc.unfinished i r hr (Nat.pos_of_ne_zero h0) hu).1] at hq
  cases hq

/-- Who has queued has been polled. -/
theorem firstPoll_pos (hc : Chronicle a h) (hr : a.requests.get? i = some r)
    (hq : r.queued = true) : 0 < (h.track i).firstPoll := by
  refine Nat.pos_of_ne_zero fun h0 => ?_
  rw [(hc.fresh i r hr h0).1] at hq
  cases hq

/-- A poll that returns `Ready`: the future is outside the queue, and the queue stays. -/
theorem finish (hc : Chronicle a h) (hr : a.requests.get? i = some r) {b : Fair W}
    (f : Request W → Request W) (m : ℕ) (hreq : b.requests = a.requests.modify i f)
    (hsize : (f r).size = r.size) (hcl : b.closed = a.closed) (hw : b.waiting = a.waiting)
    (hwoken : b.woken = a.woken) (hi : i ∉ a.waiting)
    (hdone : (f r).queued = false ∨ a.closed = true)
    (hfirst : (h.track i).firstPoll = 0 → 0 < r.size.toNat → a.waiting = []) :
    Chronicle b (h.poll i cx m false) := by
  have hself := h.track_poll_self i cx m false
  have htrack : ∀ j, j ≠ i → (h.poll i cx m false).track j = h.track j := fun j hj =>
    h.track_poll_of_ne hj cx m false
  have hne : ∀ j ∈ a.waiting, j ≠ i := fun j hj => ne_of_mem_of_not_mem hj hi
  have hclients : Clients b (h.poll i cx m false) :=
    hc.clients.poll hc.clock_pos hr f hreq hcl cx m false nofun fun _ => hdone
  have hget : ∀ j r', b.requests.get? j = some r' →
      ∃ r, a.requests.get? j = some r ∧ (j = i → r' = f r) ∧ (j ≠ i → r' = r) := by
    intro j r' hr'
    rw [hreq] at hr'
    obtain ⟨r, hr, rfl⟩ := Store.exists_of_get?_modify hr'
    exact ⟨r, hr, fun hj => if_pos hj, fun hj => if_neg hj⟩
  have hwaker : ∀ j, j ≠ i → b.waker j = a.waker j := fun j hj => by
    rw [Fair.waker, Fair.waker, hreq, Store.get?_modify_of_ne _ _ hj]
  refine ⟨Nat.succ_pos _, hclients.before, hclients.fresh, hclients.unfinished,
    hclients.finished, ?_, ?_, ?_, ?_⟩
  · rw [hw]
    refine hc.order.imp_of_mem fun {j k} hj hk hlt => ?_
    rw [htrack j (hne j hj), htrack k (hne k hk)]
    exact hlt
  · intro j hj k r' hr' hs hlt'
    obtain ⟨r₀, hr₀, hself', heq⟩ := hget k r' hr'
    rw [hw] at hj ⊢
    rw [htrack j (hne j hj)] at hlt'
    by_cases hk : k = i
    · subst hk
      obtain rfl := Option.some.inj (hr.symm.trans hr₀)
      rw [hself' rfl, hsize] at hs
      rw [hself] at hlt'
      simp only at hlt'
      split_ifs at hlt' with h0
      · rw [hfirst h0 hs] at hj
        cases hj
      · exact hc.first_come j hj k r hr hs hlt'
    · rw [heq hk] at hs
      rw [htrack k hk] at hlt'
      exact hc.first_come j hj k r₀ hr₀ hs hlt'
  · intro j hj w m' hp
    rw [hw] at hj
    rw [htrack j (hne j hj)] at hp
    rw [hwaker j (hne j hj), hwoken]
    exact hc.registered j hj w m' hp
  · intro j r' hr' hj w m' hp
    by_cases hji : j = i
    · subst hji
      rw [hself] at hp
      cases hp
    · obtain ⟨r₀, hr₀, -⟩ := hget j r' hr'
      rw [htrack j hji] at hp
      rw [hwoken]
      exact hc.notified j r₀ hr₀ (hw ▸ hj) w m' hp

/-- A poll that returns `Pending`: the future is in the queue afterwards, with a waker of the
polling task. -/
theorem pend (hc : Chronicle a h) (hr : a.requests.get? i = some r) {b : Fair W}
    (f : Request W → Request W) (hreq : b.requests = a.requests.modify i f)
    (hqueued : (f r).queued = true) (hsize : (f r).size = r.size)
    (hwaker : ∃ w', (f r).waker = some w' ∧ Waker.task w' = Waker.task cx)
    (hcl : b.closed = a.closed) (hwoken : b.woken = a.woken) (hi : i ∈ b.waiting)
    (hw : ∀ j, j ≠ i → (j ∈ b.waiting ↔ j ∈ a.waiting))
    (horder : b.waiting.Pairwise fun j k =>
      ((h.poll i cx (b.woken i).length true).track j).firstPoll
        < ((h.poll i cx (b.woken i).length true).track k).firstPoll)
    (hfirst : ∀ j ∈ b.waiting, ∀ k r, a.requests.get? k = some r → 0 < r.size.toNat →
      ((h.poll i cx (b.woken i).length true).track j).firstPoll
        < ((h.poll i cx (b.woken i).length true).track k).firstPoll → k ∈ b.waiting) :
    Chronicle b (h.poll i cx (b.woken i).length true) := by
  have hself := h.track_poll_self i cx (b.woken i).length true
  have htrack : ∀ j, j ≠ i → (h.poll i cx (b.woken i).length true).track j = h.track j :=
    fun j hj => h.track_poll_of_ne hj cx _ true
  have hclients : Clients b (h.poll i cx (b.woken i).length true) :=
    hc.clients.poll hc.clock_pos hr f hreq hcl cx _ true (fun _ => hqueued) nofun
  have hget : ∀ j r', b.requests.get? j = some r' →
      ∃ r, a.requests.get? j = some r ∧ (j = i → r' = f r) ∧ (j ≠ i → r' = r) := by
    intro j r' hr'
    rw [hreq] at hr'
    obtain ⟨r, hr, rfl⟩ := Store.exists_of_get?_modify hr'
    exact ⟨r, hr, fun hj => if_pos hj, fun hj => if_neg hj⟩
  have hbi : b.requests.get? i = some (f r) := by rw [hreq, Store.get?_modify_self, hr]; rfl
  refine ⟨Nat.succ_pos _, hclients.before, hclients.fresh, hclients.unfinished,
    hclients.finished, ?_, ?_, ?_, ?_⟩
  · exact horder
  · intro j hj k r' hr' hs hlt'
    obtain ⟨r₀, hr₀, hself', heq⟩ := hget k r' hr'
    refine hfirst j hj k r₀ hr₀ ?_ hlt'
    by_cases hk : k = i
    · subst hk
      obtain rfl := Option.some.inj (hr.symm.trans hr₀)
      rwa [hself' rfl, hsize] at hs
    · rwa [heq hk] at hs
  · intro j hj w m hp
    by_cases hji : j = i
    · subst hji
      rw [hself] at hp
      obtain ⟨rfl, rfl⟩ := Prod.mk.inj (Option.some.inj hp)
      rw [Fair.waker_of_get? hbi]
      exact ⟨hwaker, rfl⟩
    · rw [htrack j hji] at hp
      rw [Fair.waker, hreq, Store.get?_modify_of_ne _ _ hji, hwoken]
      exact hc.registered j ((hw j hji).mp hj) w m hp
  · intro j r' hr' hj w m hp
    have hji : j ≠ i := by
      rintro rfl
      exact hj hi
    obtain ⟨r₀, hr₀, -⟩ := hget j r' hr'
    rw [htrack j hji] at hp
    rw [hwoken]
    exact hc.notified j r₀ hr₀ (fun hm => hj ((hw j hji).mpr hm)) w m hp

/-- A newcomer waits behind all the others: its first poll is the latest. -/
theorem enqueue (hc : Chronicle a h) (ha : a.Sound) (cx : W) (hr : a.requests.get? i = some r)
    (hu : (h.track i).finished = false) (hrq : r.queued = false) :
    Chronicle (a.enqueue i cx) (h.poll i cx ((a.enqueue i cx).woken i).length true) := by
  have hi : i ∉ a.waiting := ha.not_mem_of_not_queued hr hrq
  have h0 := hc.firstPoll_eq_zero hr hu hrq
  have hne : ∀ j ∈ a.waiting, j ≠ i := fun j hj => ne_of_mem_of_not_mem hj hi
  -- the newcomer's first poll is the latest of all
  have hfp : ∀ m, ((h.poll i cx m true).track i).firstPoll = h.clock := by
    intro m
    rw [h.track_poll_self]
    exact if_pos h0
  have hfp' : ∀ m j, j ≠ i →
      ((h.poll i cx m true).track j).firstPoll = (h.track j).firstPoll := fun m j hj => by
    rw [h.track_poll_of_ne hj]
  have hold : ∀ j ∈ a.waiting, (h.track j).firstPoll < h.clock := fun j hj => by
    obtain ⟨r', hr', -⟩ := ha.exists_of_mem hj
    exact hc.before j r' hr'
  have hmem : ∀ j, j ∈ (a.enqueue i cx).waiting ↔ j ∈ a.waiting ∨ j = i := fun j => by
    rw [Fair.enqueue, List.mem_append, List.mem_singleton]
  refine hc.pend hr _ rfl (by simp) (by simp) (Request.waker_register cx _) rfl rfl
    ((hmem i).mpr (Or.inr rfl)) (fun j hj => by simp [hmem j, hj]) ?_ ?_
  · refine List.pairwise_append.mpr ⟨?_, List.pairwise_singleton _ _, ?_⟩
    · refine hc.order.imp_of_mem fun {j k} hj hk hlt => ?_
      rw [hfp' _ j (hne j hj), hfp' _ k (hne k hk)]
      exact hlt
    · intro j hj k hk
      rw [List.mem_singleton.mp hk, hfp, hfp' _ j (hne j hj)]
      exact hold j hj
  · intro j hj k r' hr' hs hlt
    rw [hmem]
    by_cases hk : k = i
    · exact Or.inr hk
    · refine Or.inl ?_
      rw [hfp' _ k hk] at hlt
      rcases (hmem j).mp hj with hj | rfl
      · rw [hfp' _ j (hne j hj)] at hlt
        exact hc.first_come j hj k r' hr' hs hlt
      · rw [hfp] at hlt
        have := hc.before k r' hr'
        omega

/-- **Polling keeps the chronicle.** -/
theorem poll (hc : Chronicle a h) (ha : a.Sound) (cx : W) (hr : a.requests.get? i = some r)
    (hu : (h.track i).finished = false) :
    Chronicle (a.poll i cx).2
      (h.poll i cx ((a.poll i cx).2.woken i).length (a.poll i cx).1.isPending) := by
  have hp := Fair.polled cx hr
  generalize a.poll i cx = p at hp
  cases hp with
  | closed hcl =>
    have hw := ha.waiting_of_closed hcl
    exact hc.finish hr id _ (Store.modify_eq_self _ _ _ fun _ _ => rfl).symm rfl rfl rfl rfl
      (by simp [hw]) (Or.inr hcl) fun _ _ => hw
  | taken hcl hrq hav =>
    have hi : i ∉ a.waiting := ha.not_mem_of_not_queued hr hrq
    refine hc.finish hr id _ (Store.modify_eq_self _ _ _ fun _ _ => rfl).symm rfl rfl rfl rfl hi
      (Or.inl hrq) fun _ hs => ?_
    -- somebody in the queue would have left the counter empty
    by_contra hne
    have := ha.exhausted hne
    omega
  | collected hcl hrq hn =>
    have hi : i ∉ a.waiting := ha.not_mem_of_served hr hn
    have hpos := hc.firstPoll_pos hr hrq
    exact hc.finish hr ({ · with queued := false }) _ rfl rfl rfl rfl rfl hi (Or.inl rfl)
      fun h0 => absurd h0 hpos.ne'
  | waiting hcl hrq hn =>
    have hi : i ∈ a.waiting := (ha.mem_waiting i).mpr ⟨hcl, r, hr, hrq, hn⟩
    have hpos := hc.firstPoll_pos hr hrq
    -- the first poll of no future changes
    have hfp : ∀ m j, ((h.poll i cx m true).track j).firstPoll = (h.track j).firstPoll := by
      intro m j
      by_cases hj : j = i
      · subst hj
        rw [h.track_poll_self]
        exact if_neg hpos.ne'
      · rw [h.track_poll_of_ne hj]
    refine hc.pend hr (Request.register cx) rfl (by simp [hrq]) (by simp)
      (Request.waker_register cx r) rfl rfl hi (fun _ _ => Iff.rfl) ?_ ?_
    · simp only [hfp]
      exact hc.order
    · simp only [hfp]
      exact hc.first_come
  | enqueued hcl hrq hav => exact hc.enqueue ha cx hr hu hrq

end Poll

end Chronicle

end LocalSync.Semaphore
