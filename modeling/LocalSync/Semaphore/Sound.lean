/-
  The abstract semaphore keeps its invariant and its permits.

  For each operation of `Fair`: `Sound` is preserved, and `inside` moves by the
  permits that the operation lets in or out.
-/
import LocalSync.Semaphore.Fair

namespace LocalSync.Semaphore.Fair

open Lib

variable {W : Type} {a : Fair W} {i j : Addr} {n : ℕ} {q : List Addr} {r : Request W}

/-! ### One request at a time -/

/-- Serving the oldest request keeps the invariant. -/
theorem Sound.wakeUp (ha : a.Sound) (hq : a.waiting = i :: q) : (a.wakeUp i 0).Sound := by
  have hi : i ∉ q := (List.nodup_cons.mp (hq ▸ ha.nodup)).1
  have htail : (a.wakeUp i 0).waiting = q := by simp [Fair.wakeUp, hq]
  have hget : ∀ j, j ≠ i → (a.wakeUp i 0).requests.get? j = a.requests.get? j := fun j hj =>
    Store.get?_modify_of_ne _ _ hj
  have hne : ∀ j ∈ q, j ≠ i := fun j hj => ne_of_mem_of_not_mem hj hi
  constructor
  · rw [htail]
    exact (List.nodup_cons.mp (hq ▸ ha.nodup)).2
  · intro j
    rw [htail]
    by_cases hj : j = i
    · subst hj
      simp [hi, Fair.wakeUp]
    · rw [hget j hj, show (a.wakeUp i 0).closed = a.closed from rfl, ← ha.mem_waiting j, hq]
      simp [hj]
  · intro j r hr
    by_cases hj : j = i
    · subst hj
      obtain ⟨r₀, -, rfl⟩ := Option.map_eq_some_iff.mp
        ((Store.get?_modify_self _ _ _).symm.trans hr)
      exact Nat.zero_le _
    · exact ha.need_le j r (hget j hj ▸ hr)
  · intro _
    exact ha.exhausted (by simp [hq])
  · intro j hj r hr
    rw [htail] at hj
    have hjq : j ∈ q := List.mem_of_mem_tail hj
    exact ha.whole j (by simpa [hq] using hjq) r (hget j (hne j hjq) ▸ hr)
  · intro j hj
    rw [htail] at hj
    rw [waker, hget j (hne j hj)]
    exact ha.awake j (by simp [hq, hj])

/-- Serving the oldest request brings in what it needed. -/
theorem inside_wakeUp (hr : a.requests.get? i = some r) (hqd : r.queued = true)
    (hle : r.need ≤ r.size.toNat) : (a.wakeUp i 0).inside = a.inside + r.need := by
  have hsum := Store.sum_modify a.requests i r
    (fun r => ({ r with need := 0, waker := none } : Request W)) Request.held hr
  rw [inside_eq a hr, inside, Fair.wakeUp, hsum]
  simp only [Request.held, hqd, ↓reduceIte]
  omega

/-- Topping up the oldest request keeps the invariant. -/
theorem Sound.topUp (ha : a.Sound) (hq : a.waiting = i :: q) (hn : n < a.need i) :
    (a.topUp i n).Sound := by
  have hi : i ∉ q := (List.nodup_cons.mp (hq ▸ ha.nodup)).1
  have hmem : i ∈ a.waiting := by simp [hq]
  have hget : ∀ j, j ≠ i → (a.topUp i n).requests.get? j = a.requests.get? j := fun j hj =>
    Store.get?_modify_of_ne _ _ hj
  obtain ⟨r, hr, hqd, -⟩ := ha.exists_of_mem hmem
  rw [need_of_get? hr] at hn
  have hself : (a.topUp i n).requests.get? i = some { r with need := r.need - n } := by
    simp [Fair.topUp, hr]
  constructor
  · exact ha.nodup
  · intro j
    rw [show (a.topUp i n).waiting = a.waiting from rfl]
    by_cases hj : j = i
    · subst hj
      rw [hself]
      have hopen := ha.open_of_mem hmem
      simp [hmem, Fair.topUp, hopen, hqd, Nat.sub_pos_of_lt hn]
    · rw [hget j hj, ha.mem_waiting j]
      rfl
  · intro j r' hr'
    by_cases hj : j = i
    · subst hj
      obtain rfl := Option.some.inj (hself.symm.trans hr')
      exact (Nat.sub_le _ _).trans (ha.need_le j r hr)
    · exact ha.need_le j r' (hget j hj ▸ hr')
  · exact ha.exhausted
  · intro j hj r' hr'
    rw [show (a.topUp i n).waiting = a.waiting from rfl, hq, List.tail_cons] at hj
    exact ha.whole j (by simpa [hq] using hj) r'
      (hget j (ne_of_mem_of_not_mem hj hi) ▸ hr')
  · intro j hj
    by_cases hji : j = i
    · subst hji
      have hw := ha.awake j hmem
      rw [waker_of_get? hr] at hw
      rw [waker_of_get? hself]
      exact hw
    · rw [waker, hget j hji]
      exact ha.awake j hj

/-- Topping up brings in what it hands out. -/
theorem inside_topUp (hr : a.requests.get? i = some r) (hqd : r.queued = true)
    (hle : r.need ≤ r.size.toNat) (hn : n ≤ r.need) : (a.topUp i n).inside = a.inside + n := by
  have hsum := Store.sum_modify a.requests i r
    (fun r => ({ r with need := r.need - n } : Request W)) Request.held hr
  rw [inside_eq a hr, inside, Fair.topUp, hsum]
  simp only [Request.held, hqd, ↓reduceIte]
  omega

/-! ### The hand-out -/

/-- The hand-out serves the queue from its oldest end. -/
theorem handOut_suffix (n : ℕ) (q : List Addr) (a : Fair W) :
    (Fair.handOut n q a).waiting <:+ a.waiting := by
  induction q generalizing a n with
  | nil => exact List.suffix_rfl
  | cons i q ih =>
    rw [Fair.handOut]
    split_ifs
    · exact (ih _ _).trans (List.tail_suffix _)
    · exact List.suffix_rfl

theorem Sound.handOut (ha : a.Sound) (hq : a.waiting = q) : (handOut n q a).Sound := by
  induction q generalizing a n with
  | nil =>
    exact ⟨ha.nodup, ha.mem_waiting, ha.need_le, fun h => absurd hq h, ha.whole, ha.awake⟩
  | cons i q ih =>
    rw [Fair.handOut]
    by_cases hn : a.need i ≤ n
    · rw [if_pos hn]
      exact ih (ha.wakeUp hq) (by simp [Fair.wakeUp, hq])
    · rw [if_neg hn]
      exact ha.topUp hq (Nat.lt_of_not_le hn)

theorem inside_handOut (ha : a.Sound) (hq : a.waiting = q) :
    (handOut n q a).inside = a.inside + n := by
  induction q generalizing a n with
  | nil => exact Nat.add_right_comm _ _ _
  | cons i q ih =>
    obtain ⟨r, hr, hqd, -⟩ := ha.exists_of_mem (i := i) (by simp [hq])
    have hle := ha.need_le i r hr
    rw [handOut]
    by_cases hn : a.need i ≤ n
    · rw [if_pos hn, ih (ha.wakeUp hq) (by simp [wakeUp, hq]), inside_wakeUp hr hqd hle]
      rw [need_of_get? hr] at hn ⊢
      omega
    · rw [if_neg hn]
      rw [need_of_get? hr] at hn
      exact inside_topUp hr hqd hle (by omega)

/-- **Releasing permits keeps the invariant.** -/
theorem Sound.release (ha : a.Sound) (n : ℕ) : (a.release n).Sound := ha.handOut rfl

/-- **Released permits stay inside.** -/
theorem inside_release (ha : a.Sound) (n : ℕ) : (a.release n).inside = a.inside + n :=
  inside_handOut ha rfl

/-- When nobody waits, permits go to the counter. -/
theorem release_of_nil (hq : a.waiting = []) (n : ℕ) :
    a.release n = { a with available := a.available + n } :=
  congrArg (fun q => Fair.handOut n q a) hq

/-- A hand-out takes nothing out of the counter. -/
theorem available_le_handOut (n : ℕ) (q : List Addr) (a : Fair W) :
    a.available ≤ (Fair.handOut n q a).available := by
  induction q generalizing a n with
  | nil => exact Nat.le_add_right _ _
  | cons i q ih =>
    rw [Fair.handOut]
    split_ifs
    · exact ih _ (a.wakeUp i 0)
    · exact le_rfl

theorem available_le_release (a : Fair W) (n : ℕ) : a.available ≤ (a.release n).available :=
  available_le_handOut n a.waiting a

/-- Handing out nothing changes nothing. -/
theorem release_zero (ha : a.Sound) : a.release 0 = a := by
  cases hq : a.waiting with
  | nil => rw [release_of_nil hq, Nat.add_zero]
  | cons i q =>
    obtain ⟨r, hr, -, hpos⟩ := ha.exists_of_mem (i := i) (by simp [hq])
    have hn : ¬ a.need i ≤ 0 := by
      rw [need_of_get? hr]
      omega
    rw [Fair.release, hq, Fair.handOut, if_neg hn, Fair.topUp]
    have hid : a.requests.modify i (fun r => { r with need := r.need - 0 }) = a.requests :=
      Store.modify_eq_self _ _ _ fun _ _ => rfl
    rw [hid]

/-! ### Requests come and go -/

theorem Sound.acquire (ha : a.Sound) (hi : a.requests.get? i = none) (n : UInt32) :
    (a.acquire i n).Sound := by
  have hni : i ∉ a.waiting := fun h => by
    obtain ⟨r, hr, -⟩ := ha.exists_of_mem h
    rw [hi] at hr
    cases hr
  have hget : ∀ j, j ≠ i → (a.acquire i n).requests.get? j = a.requests.get? j := fun j hj =>
    Store.get?_insert_of_ne _ _ hj
  constructor
  · exact ha.nodup
  · intro j
    rw [show (a.acquire i n).waiting = a.waiting from rfl]
    by_cases hj : j = i
    · subst hj
      simp [hni, Fair.acquire, Request.new]
    · rw [hget j hj, ha.mem_waiting j]
      rfl
  · intro j r hr
    by_cases hj : j = i
    · subst hj
      obtain rfl := Option.some.inj ((Store.get?_insert_self _ _ _).symm.trans hr)
      exact le_rfl
    · exact ha.need_le j r (hget j hj ▸ hr)
  · exact ha.exhausted
  · intro j hj r hr
    have hj' : j ∈ a.waiting := List.mem_of_mem_tail hj
    exact ha.whole j hj r (hget j (ne_of_mem_of_not_mem hj' hni) ▸ hr)
  · intro j hj
    rw [waker, hget j (ne_of_mem_of_not_mem hj hni)]
    exact ha.awake j hj

theorem inside_acquire (hi : a.requests.get? i = none) (n : UInt32) :
    (a.acquire i n).inside = a.inside := by
  rw [inside, acquire, Store.sum_insert _ _ _ _ hi]
  simp [inside]

theorem Sound.remove (ha : a.Sound) (i : Addr) : (a.remove i).Sound := by
  have hget : ∀ j, j ≠ i → (a.remove i).requests.get? j = a.requests.get? j := fun j hj =>
    Store.get?_erase_of_ne _ hj
  have hne : ∀ j ∈ a.waiting.erase i, j ≠ i ∧ j ∈ a.waiting := fun j hj =>
    (ha.nodup.mem_erase_iff).mp hj
  have htail : ∀ j ∈ (a.waiting.erase i).tail, j ∈ a.waiting.tail := by
    intro j hj
    cases hq : a.waiting with
    | nil => simp [hq] at hj
    | cons k q =>
      rw [hq, List.erase_cons] at hj
      by_cases hk : k = i
      · simp only [hk, beq_self_eq_true, ↓reduceIte] at hj
        exact List.mem_of_mem_tail hj
      · simp only [beq_iff_eq, hk, ↓reduceIte, List.tail_cons] at hj
        exact List.mem_of_mem_erase hj
  constructor
  · exact ha.nodup.erase i
  · intro j
    rw [show (a.remove i).waiting = a.waiting.erase i from rfl, ha.nodup.mem_erase_iff]
    by_cases hj : j = i
    · subst hj
      simp [Fair.remove]
    · rw [hget j hj, ha.mem_waiting j]
      simp [hj, Fair.remove]
  · intro j r hr
    by_cases hj : j = i
    · subst hj
      simp [Fair.remove] at hr
    · exact ha.need_le j r (hget j hj ▸ hr)
  · intro h
    refine ha.exhausted fun hnil => h ?_
    show a.waiting.erase i = []
    rw [hnil]
    rfl
  · intro j hj r hr
    have hj' := hne j (List.mem_of_mem_tail hj)
    exact ha.whole j (htail j hj) r (hget j hj'.1 ▸ hr)
  · intro j hj
    have hj' := hne j hj
    rw [waker, hget j hj'.1]
    exact ha.awake j hj'.2

theorem inside_remove (hr : a.requests.get? i = some r) :
    (a.remove i).inside + r.held = a.inside := by
  rw [inside_eq a hr, Nat.add_right_comm]
  rfl

/-- A request that holds nothing is only forgotten. -/
theorem Sound.cancel_of_held (ha : a.Sound) (hr : a.requests.get? i = some r) (h0 : r.held = 0) :
    a.cancel i = a.remove i := by
  rw [Fair.cancel, hr, Option.elim_some, h0, Fair.release_zero (ha.remove i)]

/-- **Cancelling a request keeps the invariant.** -/
theorem Sound.cancel (ha : a.Sound) (i : Addr) : (a.cancel i).Sound := (ha.remove i).release _

/-- **A cancelled request gives back what it held.** -/
theorem inside_cancel (ha : a.Sound) (hr : a.requests.get? i = some r) :
    (a.cancel i).inside = a.inside := by
  rw [cancel, inside_release (ha.remove i), hr, Option.elim_some, inside_remove hr]

/-! ### The counter -/

theorem Sound.take (ha : a.Sound) (n : ℕ) : (a.take n).Sound := by
  refine ⟨ha.nodup, ha.mem_waiting, ha.need_le, fun h => ?_, ha.whole, ha.awake⟩
  show a.available - n = 0
  rw [ha.exhausted h, Nat.zero_sub]

theorem inside_take {n : ℕ} (hn : n ≤ a.available) : (a.take n).inside + n = a.inside := by
  show a.available - n + a.requests.sum Request.held + n = a.available + a.requests.sum Request.held
  omega

theorem Sound.tryAcquire (ha : a.Sound) (n : UInt32) : (a.tryAcquire n).2.Sound := by
  unfold Fair.tryAcquire
  split_ifs
  · exact ha
  · exact ha
  · exact ha.take _

/-- What `tryAcquire` answers: the closed flag first, then the counter. -/
theorem tryAcquire_fst (a : Fair W) (n : UInt32) :
    (a.tryAcquire n).1 = if a.closed then .error .closed
      else if a.available < n.toNat then .error .noPermits else .ok () := by
  unfold tryAcquire
  split_ifs <;> rfl

theorem inside_tryAcquire_ok {n : UInt32} (h : (a.tryAcquire n).1 = .ok ()) :
    (a.tryAcquire n).2.inside + n.toNat = a.inside := by
  unfold tryAcquire at h ⊢
  split_ifs at h ⊢ with hc hn
  exact inside_take (Nat.le_of_not_lt hn)

theorem tryAcquire_error {n : UInt32} {e : TryAcquireError} (h : (a.tryAcquire n).1 = .error e) :
    (a.tryAcquire n).2 = a := by
  unfold tryAcquire at h ⊢
  split_ifs at h ⊢ <;> rfl

/-! ### Closing -/

/-- Waking the whole queue empties it; everybody's waker goes out, and no request gets or loses
a permit. -/
theorem wakeAll_spec (hq : a.waiting = q) (hnd : q.Nodup) :
    (wakeAll q a).available = a.available ∧ (wakeAll q a).closed = a.closed ∧
    (wakeAll q a).waiting = [] ∧
    (∀ j, (wakeAll q a).woken j =
      if j ∈ q then a.woken j ++ (a.waker j).toList else a.woken j) ∧
    ∀ j, (wakeAll q a).requests.get? j =
      if j ∈ q then (a.requests.get? j).map ({ · with waker := none }) else a.requests.get? j := by
  induction q generalizing a with
  | nil => exact ⟨rfl, rfl, hq, fun j => by simp [wakeAll], fun j => by simp [wakeAll]⟩
  | cons i q ih =>
    obtain ⟨hi, hnd⟩ := List.nodup_cons.mp hnd
    obtain ⟨hav, hcl, hwt, hwoken, hreq⟩ :=
      ih (a := a.wakeUp i (a.need i)) (by simp [wakeUp, hq]) hnd
    have hget : ∀ j, j ≠ i →
        (a.wakeUp i (a.need i)).requests.get? j = a.requests.get? j := fun j hj =>
      Store.get?_modify_of_ne _ _ hj
    rw [wakeAll]
    refine ⟨hav, hcl, hwt, fun j => ?_, fun j => ?_⟩
    · rw [hwoken j]
      by_cases hj : j = i
      · subst hj
        simp [hi, wakeUp]
      · have hw : (a.wakeUp i (a.need i)).waker j = a.waker j := by rw [waker, waker, hget j hj]
        have hl : (a.wakeUp i (a.need i)).woken j = a.woken j := Function.update_of_ne hj _ _
        simp [hj, hw, hl]
    · rw [hreq j]
      by_cases hj : j = i
      · subst hj
        cases hr : a.requests.get? j <;> simp [hi, wakeUp, need, hr]
      · rw [hget j hj]
        simp [hj]

/-- **Closing keeps the invariant.** -/
theorem Sound.close (ha : a.Sound) : a.close.Sound := by
  obtain ⟨-, hc, hw, -, hreq⟩ := wakeAll_spec (a := { a with closed := true }) rfl ha.nodup
  change a.close.waiting = [] at hw
  change a.close.closed = true at hc
  constructor
  · rw [hw]
    exact List.nodup_nil
  · intro i
    simp [hw, hc]
  · intro i r hr
    rw [Fair.close, hreq i] at hr
    by_cases hi : i ∈ a.waiting
    · rw [if_pos hi] at hr
      obtain ⟨r₀, hr₀, rfl⟩ := Option.map_eq_some_iff.mp hr
      exact ha.need_le i r₀ hr₀
    · rw [if_neg hi] at hr
      exact ha.need_le i r hr
  · exact fun h => absurd hw h
  · intro i hi
    rw [hw] at hi
    cases hi
  · intro i hi
    rw [hw] at hi
    cases hi

/-- Closing keeps all permits inside. -/
theorem inside_close (a : Fair W) : a.close.inside = a.inside := by
  have key : ∀ (q : List Addr) (b : Fair W), (wakeAll q b).inside = b.inside := by
    intro q
    induction q with
    | nil => exact fun _ => rfl
    | cons i q ih =>
      intro b
      rw [wakeAll, ih]
      have hs : (b.wakeUp i (b.need i)).requests.sum Request.held
          = b.requests.sum Request.held :=
        Store.sum_modify_of_eq _ _ _ _ fun r hr => by simp [Request.held, need_of_get? hr]
      rw [inside, hs]
      rfl
  exact key _ _

/-! ### Polling -/

section Poll

variable [Waker W] {cx : W}

/-- Joining the queue keeps the invariant. -/
theorem Sound.enqueue (ha : a.Sound) (hc : a.closed = false) (hr : a.requests.get? i = some r)
    (hqd : r.queued = false) (hneed : r.need = r.size.toNat) (hav : a.available < r.size.toNat) :
    (a.enqueue i cx).Sound := by
  have hi : i ∉ a.waiting := ha.not_mem_of_not_queued hr hqd
  have hget : ∀ j, j ≠ i → (a.enqueue i cx).requests.get? j = a.requests.get? j := fun j hj =>
    Store.get?_modify_of_ne _ _ hj
  have hself : (a.enqueue i cx).requests.get? i = some
      (({ r with need := r.need - a.available, queued := true } : Request W).register cx) := by
    simp [Fair.enqueue, hr]
  constructor
  · exact List.nodup_append.mpr ⟨ha.nodup, List.nodup_singleton i, by
      rintro j hj k hk rfl
      exact hi (List.mem_singleton.mp hk ▸ hj)⟩
  · intro j
    rw [show (a.enqueue i cx).waiting = a.waiting ++ [i] from rfl, List.mem_append,
      List.mem_singleton]
    by_cases hj : j = i
    · subst hj
      rw [hself]
      have hpos : 0 < r.need - a.available := by omega
      simp [Fair.enqueue, hc, hpos]
    · rw [hget j hj, ha.mem_waiting j]
      simp [hj, Fair.enqueue]
  · intro j r' hr'
    by_cases hj : j = i
    · subst hj
      obtain rfl := Option.some.inj (hself.symm.trans hr')
      simpa using (Nat.sub_le _ _).trans (ha.need_le j r hr)
    · exact ha.need_le j r' (hget j hj ▸ hr')
  · exact fun _ => rfl
  · intro j hj r' hr'
    -- behind somebody else, the newcomer has found the counter empty
    have hav0 : j = i → a.available = 0 := by
      rintro rfl
      refine ha.exhausted fun hnil => ?_
      simp [Fair.enqueue, hnil] at hj
    by_cases hji : j = i
    · subst hji
      obtain rfl := Option.some.inj (hself.symm.trans hr')
      simp [hneed, hav0 rfl]
    · refine ha.whole j ?_ r' (hget j hji ▸ hr')
      cases hq : a.waiting with
      | nil => simp [Fair.enqueue, hq] at hj
      | cons k q => simpa [Fair.enqueue, hq, hji] using hj
  · intro j hj
    by_cases hji : j = i
    · subst hji
      obtain ⟨w, hw, -⟩ := Request.waker_register cx
        ({ r with need := r.need - a.available, queued := true } : Request W)
      rw [waker_of_get? hself, hw]
      rfl
    · rw [waker, hget j hji]
      refine ha.awake j ?_
      simpa [Fair.enqueue, hji] using hj

/-- Joining the queue moves the counter into the request. -/
theorem inside_enqueue (hr : a.requests.get? i = some r) (hqd : r.queued = false)
    (hneed : r.need = r.size.toNat) (hav : a.available < r.size.toNat) :
    (a.enqueue i cx).inside = a.inside := by
  have hsum := Store.sum_modify a.requests i r (fun r =>
    ({ r with need := r.need - a.available, queued := true } : Request W).register cx)
    Request.held hr
  rw [inside_eq a hr, inside]
  show 0 + (a.enqueue i cx).requests.sum Request.held = _
  rw [Fair.enqueue, hsum]
  rw [Request.held_register]
  simp only [Request.held, hqd, hneed, ↓reduceIte, Bool.false_eq_true]
  omega

/-- Registering a waker keeps the invariant. -/
theorem Sound.reregister (ha : a.Sound) (i : Addr) : (a.reregister i cx).Sound := by
  have hget : ∀ j r', (a.requests.modify i (Request.register cx)).get? j = some r' →
      ∃ r, a.requests.get? j = some r ∧
        r'.need = r.need ∧ r'.size = r.size ∧ r'.queued = r.queued := by
    intro j r' hr'
    by_cases hj : j = i
    · subst hj
      rw [Store.get?_modify_self] at hr'
      obtain ⟨r, hr, rfl⟩ := Option.map_eq_some_iff.mp hr'
      exact ⟨r, hr, by simp, by simp, by simp⟩
    · rw [Store.get?_modify_of_ne _ _ hj] at hr'
      exact ⟨r', hr', rfl, rfl, rfl⟩
  constructor
  · exact ha.nodup
  · intro j
    rw [show (a.reregister i cx).waiting = a.waiting from rfl, ha.mem_waiting j]
    by_cases hj : j = i
    · subst hj
      simp [Fair.reregister]
    · rw [Fair.reregister, Store.get?_modify_of_ne _ _ hj]
  · intro j r' hr'
    obtain ⟨r, hr, hn, hs, -⟩ := hget j r' hr'
    rw [hn, hs]
    exact ha.need_le j r hr
  · exact ha.exhausted
  · intro j hj r' hr'
    obtain ⟨r, hr, hn, hs, -⟩ := hget j r' hr'
    rw [hn, hs]
    exact ha.whole j hj r hr
  · intro j hj
    by_cases hji : j = i
    · subst hji
      obtain ⟨r, hr, -⟩ := ha.exists_of_mem hj
      obtain ⟨w, hw, -⟩ := Request.waker_register cx r
      simp [waker, Fair.reregister, hr, hw]
    · have hw := ha.awake j hj
      rwa [waker, Fair.reregister, Store.get?_modify_of_ne _ _ hji]

omit [Waker W] in
/-- A served request that is collected leaves the invariant alone. -/
theorem Sound.collect (ha : a.Sound) (hr : a.requests.get? i = some r) (hn : r.need = 0) :
    (a.collect i).Sound := by
  have hi : i ∉ a.waiting := ha.not_mem_of_served hr hn
  have hget : ∀ j, j ≠ i → (a.collect i).requests.get? j = a.requests.get? j := fun j hj =>
    Store.get?_modify_of_ne _ _ hj
  have hself : (a.collect i).requests.get? i = some { r with queued := false } := by
    simp [Fair.collect, hr]
  constructor
  · exact ha.nodup
  · intro j
    rw [show (a.collect i).waiting = a.waiting from rfl]
    by_cases hj : j = i
    · subst hj
      rw [hself]
      simp [hi]
    · rw [hget j hj]
      exact ha.mem_waiting j
  · intro j r' hr'
    by_cases hj : j = i
    · subst hj
      obtain rfl := Option.some.inj (hself.symm.trans hr')
      exact ha.need_le j r hr
    · exact ha.need_le j r' (hget j hj ▸ hr')
  · exact ha.exhausted
  · intro j hj r' hr'
    have hji : j ≠ i := ne_of_mem_of_not_mem (List.mem_of_mem_tail hj) hi
    exact ha.whole j hj r' (hget j hji ▸ hr')
  · intro j hj
    rw [waker, hget j (ne_of_mem_of_not_mem hj hi)]
    exact ha.awake j hj

/-- **Polling keeps the invariant**, as long as a request that never queued has received
nothing. -/
theorem Sound.poll (ha : a.Sound) (hr : a.requests.get? i = some r)
    (hnew : r.queued = false → r.need = r.size.toNat) : (a.poll i cx).2.Sound := by
  have h := polled cx hr
  generalize a.poll i cx = p at h
  cases h with
  | closed => exact ha
  | collected hc hq hn => exact ha.collect hr hn
  | waiting => exact ha.reregister i
  | taken => exact ha.take _
  | enqueued hc hq hav => exact ha.enqueue hc hr hq (hnew hq) hav

omit [Waker W] in
/-- A collected request held all it asked for. -/
theorem inside_collect (hr : a.requests.get? i = some r) (hq : r.queued = true)
    (hn : r.need = 0) : (a.collect i).inside + r.size.toNat = a.inside := by
  have hsum := Store.sum_modify a.requests i r
    (fun r => ({ r with queued := false } : Request W)) Request.held hr
  rw [inside_eq a hr, inside, collect, hsum]
  simp only [Request.held, hq, hn, ↓reduceIte, Bool.false_eq_true]
  omega

theorem inside_reregister (a : Fair W) (i : Addr) : (a.reregister i cx).inside = a.inside := by
  have hsum := Store.sum_modify_of_eq a.requests i (Request.register cx) Request.held
    fun r _ => Request.held_register cx r
  rw [inside, reregister, hsum]
  rfl

/-- A poll that returns `Ready(Ok)` takes out exactly what was asked for; every other poll leaves
all permits inside. -/
theorem inside_poll (cx : W) (hr : a.requests.get? i = some r)
    (hnew : r.queued = false → r.need = r.size.toNat) :
    (a.poll i cx).2.inside + (if (a.poll i cx).1 = .ready (.ok ()) then r.size.toNat else 0)
      = a.inside := by
  have h := polled cx hr
  generalize a.poll i cx = p at h
  cases h with
  | closed => simp
  | collected hc hq hn => simpa using inside_collect hr hq hn
  | waiting => simpa using inside_reregister a i
  | taken hc hq hav => simpa using inside_take hav
  | enqueued hc hq hav => simpa using inside_enqueue hr hq (hnew hq) hav

end Poll

/-- A poll adds nothing to the counter. -/
theorem available_poll_le [Waker W] (a : Fair W) (i : Addr) (cx : W) :
    (a.poll i cx).2.available ≤ a.available := by
  cases hr : a.requests.get? i with
  | none => simp [poll, hr]
  | some r =>
    have h := polled cx hr
    generalize a.poll i cx = p at h
    cases h with
    | taken => exact Nat.sub_le _ _
    | enqueued => exact Nat.zero_le _
    | _ => exact le_rfl

/-! ### Who asks for how much -/

theorem sizes_wakeUp (a : Fair W) (i : Addr) (n : ℕ) : (a.wakeUp i n).sizes = a.sizes := by
  unfold sizes wakeUp
  exact Store.map_modify_of_invisible _ _ _ _ fun _ => rfl

theorem sizes_topUp (a : Fair W) (i : Addr) (n : ℕ) : (a.topUp i n).sizes = a.sizes := by
  unfold sizes topUp
  exact Store.map_modify_of_invisible _ _ _ _ fun _ => rfl

theorem sizes_handOut (n : ℕ) (q : List Addr) (a : Fair W) : (handOut n q a).sizes = a.sizes := by
  induction q generalizing a n with
  | nil => rfl
  | cons i q ih =>
    rw [handOut]
    split_ifs
    · exact (ih _ _).trans (sizes_wakeUp a i 0)
    · exact sizes_topUp a i n

@[simp] theorem sizes_release (a : Fair W) (n : ℕ) : (a.release n).sizes = a.sizes :=
  sizes_handOut n a.waiting a

@[simp] theorem sizes_acquire (a : Fair W) (i : Addr) (n : UInt32) :
    (a.acquire i n).sizes = a.sizes.insert i n :=
  Store.map_insert _ _ _ _

@[simp] theorem sizes_cancel (a : Fair W) (i : Addr) : (a.cancel i).sizes = a.sizes.erase i :=
  (sizes_release _ _).trans (Store.map_erase _ _ _)

@[simp] theorem sizes_tryAcquire (a : Fair W) (n : UInt32) :
    (a.tryAcquire n).2.sizes = a.sizes := by
  unfold tryAcquire
  split_ifs <;> rfl

@[simp] theorem sizes_close (a : Fair W) : a.close.sizes = a.sizes := by
  have key : ∀ (q : List Addr) (b : Fair W), (wakeAll q b).sizes = b.sizes := by
    intro q
    induction q with
    | nil => exact fun _ => rfl
    | cons i q ih => exact fun b => (ih _).trans (sizes_wakeUp b i _)
  exact key _ _

@[simp] theorem sizes_poll [Waker W] (a : Fair W) (i : Addr) (cx : W) :
    (a.poll i cx).2.sizes = a.sizes := by
  cases hr : a.requests.get? i with
  | none => simp [poll, hr]
  | some r =>
    have h := polled cx hr
    generalize a.poll i cx = p at h
    cases h with
    | closed => rfl
    | collected =>
      unfold sizes collect
      exact Store.map_modify_of_invisible _ _ _ _ fun _ => rfl
    | waiting =>
      unfold sizes reregister
      exact Store.map_modify_of_invisible _ _ _ _ fun r => Request.size_register cx r
    | taken => rfl
    | enqueued =>
      unfold sizes enqueue
      exact Store.map_modify_of_invisible _ _ _ _ fun r => Request.size_register cx _

/-! ### Who is woken -/

/-- A hand-out wakes nobody outside the queue. -/
theorem woken_handOut (n : ℕ) (a : Fair W) (hi : i ∉ q) :
    (handOut n q a).woken i = a.woken i := by
  induction q generalizing a n with
  | nil => rfl
  | cons k q ih =>
    obtain ⟨hne, hi⟩ := not_or.mp (mt List.mem_cons.mpr hi)
    rw [handOut]
    split_ifs
    · exact (ih _ _ hi).trans (Function.update_of_ne hne _ _)
    · rfl

theorem woken_release (n : ℕ) (hi : i ∉ a.waiting) : (a.release n).woken i = a.woken i :=
  woken_handOut n a hi

/-- A hand-out that is enough for the oldest request wakes it. -/
theorem Sound.woken_head (ha : a.Sound) (hq : a.waiting = i :: q) (hn : a.need i ≤ n) :
    (a.release n).woken i = a.woken i ++ (a.waker i).toList := by
  rw [Fair.release, hq, Fair.handOut, if_pos hn,
    Fair.woken_handOut _ _ (List.nodup_cons.mp (hq ▸ ha.nodup)).1]
  exact Function.update_self _ _ _

/-- A cancelled request wakes nobody that does not wait, and not itself. -/
theorem Sound.woken_cancel (ha : a.Sound) (hj : j ∉ a.waiting ∨ j = i) :
    (a.cancel i).woken j = a.woken j := by
  refine Fair.woken_release _ fun hmem => ?_
  obtain ⟨hne, hmem⟩ := ha.nodup.mem_erase_iff.mp hmem
  exact hj.elim (fun h => h hmem) hne

/-- Closing wakes whoever waits, and nobody else. -/
theorem Sound.woken_close (ha : a.Sound) (j : Addr) :
    a.close.woken j = if j ∈ a.waiting then a.woken j ++ (a.waker j).toList else a.woken j := by
  obtain ⟨-, -, -, hwoken, -⟩ := wakeAll_spec (a := { a with closed := true }) rfl ha.nodup
  exact hwoken j

/-- What happens to the request at `i` does not disturb the others: nobody is woken, and nobody is
served, `i` included. -/
structure Undisturbed (a : Fair W) (i : Addr) (c : Fair W) : Prop where
  woken : c.woken = a.woken
  others : ∀ j, j ≠ i → c.requests.get? j = a.requests.get? j
  unserved : ∀ r, c.requests.get? i = some r → r.need ≠ 0

/-- Cancelling a request that holds nothing. -/
theorem Sound.cancel_undisturbed (ha : a.Sound) (hr : a.requests.get? i = some r)
    (h0 : r.held = 0) : a.Undisturbed i (a.cancel i) := by
  rw [ha.cancel_of_held hr h0]
  refine ⟨rfl, fun j hj => Store.get?_erase_of_ne _ hj, fun r hr => ?_⟩
  simp [Fair.remove] at hr

/-- Cancelling a request while nobody waits. -/
theorem cancel_undisturbed_of_nil (i : Addr) (hq : a.waiting = []) :
    a.Undisturbed i (a.cancel i) := by
  rw [Fair.cancel, release_of_nil (a := a.remove i) (by rw [remove, hq]; rfl)]
  refine ⟨rfl, fun j hj => Store.get?_erase_of_ne _ hj, fun r hr => ?_⟩
  simp [Fair.remove] at hr

/-! ### Whether it is closed -/

theorem closed_handOut (n : ℕ) (q : List Addr) (a : Fair W) :
    (handOut n q a).closed = a.closed := by
  induction q generalizing a n with
  | nil => rfl
  | cons i q ih =>
    rw [handOut]
    split_ifs
    · exact ih _ _
    · rfl

@[simp] theorem closed_release (a : Fair W) (n : ℕ) : (a.release n).closed = a.closed :=
  closed_handOut n a.waiting a

@[simp] theorem closed_cancel (a : Fair W) (i : Addr) : (a.cancel i).closed = a.closed :=
  closed_release _ _

@[simp] theorem closed_tryAcquire (a : Fair W) (n : UInt32) :
    (a.tryAcquire n).2.closed = a.closed := by
  unfold tryAcquire
  split_ifs <;> rfl

@[simp] theorem closed_close (a : Fair W) : a.close.closed = true := by
  have key : ∀ (q : List Addr) (b : Fair W), (wakeAll q b).closed = b.closed := by
    intro q
    induction q with
    | nil => exact fun _ => rfl
    | cons i q ih => exact fun b => ih _
  exact key _ _

@[simp] theorem closed_poll [Waker W] (a : Fair W) (i : Addr) (cx : W) :
    (a.poll i cx).2.closed = a.closed := by
  cases hr : a.requests.get? i with
  | none => simp [poll, hr]
  | some r =>
    have h := polled cx hr
    generalize a.poll i cx = p at h
    cases h <;> rfl

/-- A poll returns an error exactly when the semaphore is closed. -/
theorem closed_of_poll_ready [Waker W] {i : Addr} {cx : W} {e : Except AcquireError Unit}
    (h : (a.poll i cx).1 = .ready e) : a.closed = true ↔ e = .error .closed := by
  cases hr : a.requests.get? i with
  | none => simp [poll, hr] at h
  | some r =>
    have hp := polled cx hr
    generalize a.poll i cx = p at hp h
    cases hp with
    | closed hc =>
      obtain rfl := Poll.ready.inj h
      simp [hc]
    | collected hc =>
      obtain rfl := Poll.ready.inj h
      simp [hc]
    | waiting => cases h
    | taken hc =>
      obtain rfl := Poll.ready.inj h
      simp [hc]
    | enqueued => cases h

end LocalSync.Semaphore.Fair
