/-
  The owned semaphore is the public `Semaphore` with a reference count.

  `Follows s u`: the shared semaphore of `s` is that of the system `u`, and the
  holders of `s` have what the clients of `u` have.  A call by a holder is a run
  of the system (`exec_spec`): polling an `acquire_many_owned` future for the
  first time creates a future and polls it, and when it returns it is dropped.

  So every run with owned permits is a run with borrowed ones, on the same
  semaphore (`owned_refines`), and what holds in every run of the system holds
  here.  What is new is the `Rc`: the semaphore lives exactly as long as some
  holder does, nobody reaches it afterwards, and when it goes it has all its
  permits back and nobody waits (`owned_lifetime`).  The runs are those of
  64-bit targets in which no more permits circulate than the maximum.
-/
import LocalSync.Equiv.SemaphoreRuns
import LocalSync.Semaphore.Owned

namespace LocalSync.Semaphore

open Lib

variable {P : PointerWidth} {W : Type} [Waker W]

/-! ### Awaiting permits -/

/-- Awaiting leaves the history of all other futures alone, and the awaited one is not finished
while it is pending. -/
theorem Tracked.track_awaitMany {x y : Tracked P W} {i : Addr} {n : UInt32} {first : Bool} {cx : W}
    {r : Poll (Except AcquireError Unit)} (h : x.awaitMany i n first cx = .ok (r, y)) :
    (∀ j, j ≠ i → y.history.track j = x.history.track j) ∧
      (r = .pending → (y.history.track i).finished = false) := by
  obtain ⟨⟨r', z⟩, hpoll, h⟩ := bind_eq_ok.mp h
  obtain ⟨⟨r'', s⟩, -, hz⟩ := bind_eq_ok.mp hpoll
  obtain ⟨rfl, rfl⟩ := Prod.mk.inj (Except.ok.inj hz)
  have hother : ∀ j, j ≠ i → ((if first then x.acquire i n else x).history.poll i cx
      (wakesOf i s.woken).length r''.isPending).track j = x.history.track j := by
    intro j hj
    rw [History.track_poll_of_ne _ hj]
    split_ifs
    · exact History.track_acquire_of_ne _ hj
    · rfl
  cases r'' with
  | pending =>
    obtain ⟨rfl, rfl⟩ := Prod.mk.inj (Except.ok.inj h)
    refine ⟨hother, fun _ => ?_⟩
    show ((History.poll _ i cx _ true).track i).finished = false
    rw [History.track_poll_self]
    rfl
  | ready e =>
    obtain ⟨z, hdrop, hz⟩ := bind_eq_ok.mp h
    obtain ⟨rfl, rfl⟩ := Prod.mk.inj (Except.ok.inj hz)
    rw [history_drop hdrop]
    exact ⟨hother, fun h => by cases h⟩

namespace System

variable {u v : System P W} {a b : Fair W} {i : Addr} {n : UInt32}

/-- The system after a future for `n` permits, awaited at `i`, has answered `r`. -/
def awaited (u : System P W) (i : Addr) (n : UInt32) (sem : Tracked P W) :
    Poll (Except AcquireError Unit) → System P W
  | .pending => { u with sem, results := u.results.insert i n }
  | .ready (.error _) => { u with sem, results := u.results.erase i }
  | .ready (.ok ()) =>
    { u with sem, results := u.results.erase i, permits := u.permits.insert u.permits.fresh n }

omit [Waker W] in
theorem insert_results (hn : u.results.get? i = some n) : u.results.insert i n = u.results := by
  apply Store.ext_get?
  intro j
  by_cases hj : j = i <;> simp [Store.get?_insert, hj, hn]

omit [Waker W] in
theorem erase_insert_results (u : System P W) (i : Addr) (n : UInt32) :
    (u.results.insert i n).erase i = u.results.erase i := by
  apply Store.ext_get?
  intro j
  by_cases hj : j = i <;> simp [Store.get?_insert, Store.get?_erase, hj]

/-- An allowed call that adds nothing is a step. -/
theorem Inv.boundedStep (h : Inv u a) {c : Action W} {o : Output} (hc : u.Allowed c)
    (hres : u.exec c = .ok (o, v)) (hamount : c.amount = 0) : u.BoundedStep (c, o) v := by
  refine ⟨⟨hc, hres⟩, ?_⟩
  show u.total + c.amount ≤ _
  rw [hamount]
  exact h.bound

/-- **A poll that ends the await** drops the future at once. -/
theorem await_again (h : Inv u a) (hn : u.results.get? i = some n)
    (hu : (u.sem.history.track i).finished = false) (cx : W) :
    ∃ r sem fs b, u.sem.awaitMany i n false cx = .ok (r, sem) ∧
      Run BoundedStep u fs (u.awaited i n sem r) ∧ Inv (u.awaited i n sem r) b := by
  obtain ⟨q, hq, rfl⟩ := Fair.exists_of_sizes (a := a) (i := i) (n := n) (h.results ▸ hn)
  obtain ⟨f, hf, -⟩ := h.exists_future hq
  have hlive : (u.sem.inner.acquires.get? i).isSome = true := by
    rw [hf]
    rfl
  obtain ⟨o, v, hres, hv, -⟩ := poll_spec h hq hu cx
  have hstep : u.BoundedStep (.poll i cx, .polled o) v :=
    h.boundedStep ⟨hlive, hu⟩ (by rw [exec, hres]; rfl) rfl
  obtain ⟨q', hq', -⟩ := Fair.exists_of_sizes (a := (a.poll i cx).2) (i := i) (n := q.size) (by
    rw [Fair.sizes_poll]
    exact Fair.sizes_of_get? hq)
  -- the poll of the low-level future
  rw [poll, hn] at hres
  obtain ⟨⟨r, sem⟩, hpoll, hres⟩ := bind_eq_ok.mp hres
  have hawait : ∀ {z : Tracked P W} {e : Except AcquireError Unit}, r = .ready e →
      sem.drop i = .ok z → u.sem.awaitMany i q.size false cx = .ok (.ready e, z) := by
    rintro z e rfl hdrop
    rw [Tracked.awaitMany, if_neg Bool.false_ne_true, hpoll, ok_bind]
    simp only
    rw [hdrop]
    rfl
  have hdone : ∀ {t}, v.dropAcquire i = .ok t → v.BoundedStep (.dropAcquire i, .unit) t := by
    intro t ht
    refine hv.boundedStep ?_ (by rw [exec, ht]; rfl) rfl
    obtain ⟨f', hf', -⟩ := hv.exists_future hq'
    rw [Allowed, hf']
    rfl
  rcases r with (e | ⟨⟩) | _
  · obtain ⟨rfl, rfl⟩ := Prod.mk.inj (Except.ok.inj hres)
    obtain ⟨t, hdrop, ht, -⟩ := dropAcquire_spec hv hq'
    have hstep' := hdone hdrop
    obtain ⟨z, hz, hdrop⟩ := bind_eq_ok.mp hdrop
    obtain rfl := Except.ok.inj hdrop
    exact ⟨_, z, _, _, hawait rfl hz, (Run.single hstep).snoc hstep', ht⟩
  · obtain ⟨rfl, rfl⟩ := Prod.mk.inj (Except.ok.inj hres)
    obtain ⟨t, hdrop, ht, -⟩ := dropAcquire_spec hv hq'
    have hstep' := hdone hdrop
    obtain ⟨z, hz, hdrop⟩ := bind_eq_ok.mp hdrop
    obtain rfl := Except.ok.inj hdrop
    exact ⟨_, z, _, _, hawait rfl hz, (Run.single hstep).snoc hstep', ht⟩
  · obtain ⟨rfl, rfl⟩ := Prod.mk.inj (Except.ok.inj hres)
    have heq : u.awaited i q.size sem .pending = { u with sem } := by
      rw [awaited, insert_results hn]
    refine ⟨.pending, sem, _, _, ?_, heq ▸ Run.single hstep, heq ▸ hv⟩
    rw [Tracked.awaitMany, if_neg Bool.false_ne_true, hpoll, ok_bind]
    rfl

/-- **Awaiting permits** is a run of the system: the future is created, if it is the first poll,
then polled, and dropped when it is ready. -/
theorem awaitMany_run (hP : ∀ n : UInt32, n.toNat ≤ Inner.maxPermits P) (h : Inv u a) {first : Bool}
    (hstart : if first then u.results.get? i = none
      else u.results.get? i = some n ∧ (u.sem.history.track i).finished = false) (cx : W) :
    ∃ r sem fs b, u.sem.awaitMany i n first cx = .ok (r, sem) ∧
      Run BoundedStep u fs (u.awaited i n sem r) ∧ Inv (u.awaited i n sem r) b := by
  cases first with
  | false => exact await_again h hstart.1 hstart.2 cx
  | true =>
    have hnone : u.sem.inner.acquires.get? i = none := by
      have hsizes : a.sizes.get? i = none := h.results ▸ hstart
      cases hf : u.sem.inner.acquires.get? i with
      | none => rfl
      | some f =>
        rw [Fair.sizes_of_get? (h.get? hf)] at hsizes
        cases hsizes
    have hstep : u.BoundedStep (.acquireMany i n, .unit) (u.acquireMany i n) :=
      h.boundedStep hnone rfl rfl
    have hacquired := (acquireMany_spec hP h hnone n).1
    have hfresh : ((u.acquireMany i n).sem.history.track i).finished = false := by
      show ((u.sem.history.acquire i).track i).finished = false
      rw [History.track_acquire_self]
      rfl
    obtain ⟨r, sem, fs, b, hres, hrun, hb⟩ :=
      await_again hacquired (Store.get?_insert_self ..) hfresh cx
    have heq : (u.acquireMany i n).awaited i n sem r = u.awaited i n sem r := by
      rcases r with (e | ⟨⟩) | _ <;> simp only [awaited, acquireMany, erase_insert_results]
      congr 1
      exact insert_results (u := u.acquireMany i n) (Store.get?_insert_self ..)
    rw [heq] at hrun hb
    exact ⟨r, sem, _, b, hres, .cons hstep hrun, hb⟩

/-- The balance of a run of the system. -/
theorem balance_run {p : ℕ} {fs : List (Action W × Output)} {u : System .w64 W}
    (hp : p ≤ Inner.maxPermits .w64) (hrun : Run BoundedStep (System.new .w64 W p) fs u) :
    (∃ a, Inv u a) ∧ u.total + u.forgotten = p + u.added := by
  obtain ⟨hinv, htotal⟩ := new_inv (P := .w64) (W := W) hp
  refine hrun.invariant (I := fun u => (∃ a, Inv u a) ∧ u.total + u.forgotten = p + u.added)
    ?_ ⟨⟨_, hinv⟩, congrArg (· + 0) htotal⟩
  rintro u e v ⟨⟨a, h⟩, hbalance⟩ ⟨hstep, hmax⟩
  obtain ⟨b, hb, hmoves⟩ := step_inv toNat_le_maxPermits h hstep hmax
  refine ⟨⟨b, hb⟩, ?_⟩
  rw [hmoves.balance, hmoves.added]
  omega

end System

/-! ### The owned semaphore -/

/-- What the system knows of a holder that awaits permits. -/
def Holder.awaits : Holder → Option UInt32
  | .suspended n => some n
  | _ => none

/-- The guard of a holder. -/
def Holder.guards : Holder → Multiset UInt32
  | .permit n => {n}
  | _ => 0

namespace Owned

/-- **The holders of `s` have what the clients of `u` have.** -/
structure Follows (s : Owned P W) (u : System P W) : Prop where
  sem : u.sem = s.rc.value
  results : ∀ i, u.results.get? i = (s.holders.get? i).bind Holder.awaits
  guards : (u.permits.sum fun n => ({n} : Multiset UInt32)) = s.holders.sum Holder.guards
  added : u.added = s.added
  forgotten : u.forgotten = s.forgotten
  /-- Each holder is one reference. -/
  counts : s.rc.Counts (s.holders.sum fun _ => 1)
  unfinished : ∀ i n, s.holders.get? i = some (.suspended n) →
    (s.rc.value.history.track i).finished = false

variable {s t : Owned P W} {u v : System P W} {a : Fair W} {i : Addr} {n : UInt32}
  {old holder : Holder} {sem : Tracked P W}

namespace Follows

omit [Waker W] in
theorem new (p : ℕ) : Follows (Owned.new P W p) (System.new P W p) where
  sem := rfl
  results i := by
    show none = _
    rw [Owned.new, Store.get?_insert]
    split_ifs <;> rfl
  guards := by
    rw [Owned.new, Store.sum_insert _ _ _ _ (Store.get?_empty 0)]
    rfl
  added := rfl
  forgotten := rfl
  counts := by
    rw [Owned.new, Store.sum_insert _ _ _ _ (Store.get?_empty 0)]
    exact .new _
  unfinished i n hi := by
    rw [Owned.new, Store.get?_insert] at hi
    split_ifs at hi
    · cases hi
    · cases hi

omit [Waker W] in
/-- The same permits circulate. -/
theorem total (h : Follows s u) : u.total = s.total := by
  let φ : Multiset UInt32 →+ ℕ :=
    Multiset.sumAddMonoidHom.comp (Multiset.mapAddMonoidHom UInt32.toNat)
  have hu : u.permits.sum UInt32.toNat = φ (u.permits.sum fun n => {n}) := by
    rw [Store.sum_hom]
    congr 1
  have hs : s.holders.sum Holder.permits = φ (s.holders.sum Holder.guards) := by
    rw [Store.sum_hom]
    congr 1
    funext holder
    cases holder <;> rfl
  rw [System.total, Owned.total, h.sem, hu, hs, h.guards]

omit [Waker W] in
/-- A holder has a reference. -/
theorem deref (h : Follows s u) (hi : s.holders.get? i = some holder) :
    s.rc.deref = .ok u.sem := by
  rw [h.sem]
  apply h.counts.deref
  rw [Store.sum_eq_add_erase _ _ _ _ hi]
  omega

omit [Waker W] in
/-- Who suspends or returns does it alone. -/
theorem results_other (h : Follows s u) (hi : s.holders.get? i = some old)
    (hold : old.awaits = none) (j : Addr) :
    u.results.get? j = if j = i then none else u.results.get? j := by
  split_ifs with hj
  · rw [hj, h.results, hi]
    exact hold
  · rfl

omit [Waker W] in
/-- **The holder at `i` changes**, and the semaphore with it. -/
theorem become (h : Follows s u) (v : System P W) (hi : s.holders.get? i = some old)
    (hresults : ∀ j, v.results.get? j = if j = i then holder.awaits else u.results.get? j)
    (hguards : (v.permits.sum fun n => ({n} : Multiset UInt32)) + old.guards =
      (u.permits.sum fun n => {n}) + holder.guards)
    (hadded : v.added = u.added) (hforgotten : v.forgotten = u.forgotten)
    (htrack : ∀ j, j ≠ i → v.sem.history.track j = u.sem.history.track j)
    (hself : holder.awaits.isSome = true → (v.sem.history.track i).finished = false) :
    Follows (s.become v.sem i holder) v where
  sem := rfl
  results j := by
    rw [hresults, Owned.become, Store.get?_insert]
    split_ifs
    · rfl
    · exact h.results j
  guards := by
    rw [Owned.become, Store.sum_insert_eq]
    apply add_right_cancel (b := old.guards)
    rw [hguards, h.guards, Store.sum_eq_add_erase _ _ _ _ hi]
    ac_rfl
  added := hadded.trans h.added
  forgotten := hforgotten.trans h.forgotten
  counts := by
    have hcounts := h.counts
    rw [Store.sum_eq_add_erase _ _ _ _ hi] at hcounts
    rw [Owned.become, Store.sum_insert_eq]
    exact hcounts.set v.sem
  unfinished j m hj := by
    rw [Owned.become, Store.get?_insert] at hj
    show (v.sem.history.track j).finished = false
    split_ifs at hj with hji
    · obtain rfl := Option.some.inj hj
      rw [hji]
      exact hself rfl
    · rw [htrack j hji, h.sem]
      exact h.unfinished j m hj

omit [Waker W] in
/-- **The holder at `i` is gone**, and the semaphore may have changed before. -/
theorem dropRc (h : Follows s u) (v : System P W) (hi : s.holders.get? i = some old)
    (hresults : ∀ j, v.results.get? j = if j = i then none else u.results.get? j)
    (hguards : (v.permits.sum fun n => ({n} : Multiset UInt32)) + old.guards =
      u.permits.sum fun n => {n})
    (hadded : v.added = u.added) (hforgotten : v.forgotten = u.forgotten)
    (htrack : ∀ j, j ≠ i → v.sem.history.track j = u.sem.history.track j) :
    Follows ({ s with rc := s.rc.set v.sem }.dropRc i) v where
  sem := rfl
  results j := by
    rw [hresults, Owned.dropRc, Store.get?_erase]
    split_ifs
    · rfl
    · exact h.results j
  guards := by
    rw [Owned.dropRc]
    apply add_right_cancel (b := old.guards)
    rw [hguards, h.guards, Store.sum_eq_add_erase _ _ _ _ hi]
    exact add_comm _ _
  added := hadded.trans h.added
  forgotten := hforgotten.trans h.forgotten
  counts := by
    have hcounts := h.counts
    rw [Store.sum_eq_add_erase _ _ _ _ hi, Nat.add_comm] at hcounts
    exact (hcounts.set v.sem).drop
  unfinished j m hj := by
    rw [Owned.dropRc, Store.get?_erase] at hj
    show (v.sem.history.track j).finished = false
    split_ifs at hj with hji
    rw [htrack j hji, h.sem]
    exact h.unfinished j m hj

omit [Waker W] in
/-- The semaphore changes, and no holder does. -/
theorem set (h : Follows s u) {m : ℕ} (htrack : sem.history = u.sem.history) :
    Follows { s with rc := s.rc.set sem, added := s.added + m }
      { u with sem, added := u.added + m } where
  sem := rfl
  results := h.results
  guards := h.guards
  added := congrArg (· + m) h.added
  forgotten := h.forgotten
  counts := h.counts.set sem
  unfinished j m hj := by
    show (sem.history.track j).finished = false
    rw [htrack, h.sem]
    exact h.unfinished j m hj

omit [Waker W] in
/-- A holder that awaits nothing and guards nothing takes the place of another one. -/
theorem replace (h : Follows s u) (hi : s.holders.get? i = some old) (hold : old.awaits = none)
    (hnew : holder.awaits = none) (hguards : holder.guards = old.guards) :
    Follows { s with holders := s.holders.insert i holder } u := by
  have hrc : s.rc.set u.sem = s.rc := by
    rw [h.sem]
    rfl
  have hresults : ∀ j, u.results.get? j = if j = i then holder.awaits else u.results.get? j := by
    rw [hnew]
    exact h.results_other hi hold
  have hbecome : Follows (s.become u.sem i holder) u :=
    h.become u hi hresults (by rw [hguards]) rfl rfl (fun _ _ => rfl) fun hsome => by
      rw [hnew] at hsome
      cases hsome
  rwa [Owned.become, hrc] at hbecome

end Follows

/-! ### The calls -/

/-- Awaiting, from a future that has not been polled or one that is suspended. -/
theorem resume_spec (hP : ∀ n : UInt32, n.toNat ≤ Inner.maxPermits P) (h : System.Inv u a)
    (hf : Follows s u) (first : Bool)
    (hi : s.holders.get? i = some (if first then .unresumed n else .suspended n)) (cx : W) :
    ∃ r t fs v b, s.resume i n first cx = .ok (r, t) ∧ Run System.BoundedStep u fs v ∧
      Follows t v ∧ System.Inv v b := by
  have hguards : (if first then Holder.unresumed n else .suspended n).guards = 0 := by
    cases first <;> rfl
  have hstart : if first then u.results.get? i = none
      else u.results.get? i = some n ∧ (u.sem.history.track i).finished = false := by
    cases first with
    | true =>
      rw [if_pos rfl, hf.results, hi]
      rfl
    | false =>
      rw [if_neg Bool.false_ne_true, hf.results, hi, hf.sem]
      exact ⟨rfl, hf.unfinished i n hi⟩
  obtain ⟨r, sem, fs, b, hawait, hrun, hb⟩ := System.awaitMany_run hP h hstart cx
  obtain ⟨hother, hself⟩ := Tracked.track_awaitMany hawait
  rcases r with (e | ⟨⟩) | _
  · have hresume : s.resume i n first cx =
        .ok (.ready (.error e), { s with rc := s.rc.set sem }.dropRc i) := by
      rw [resume, hf.deref hi, ok_bind, hawait, Inner.fault_ok, ok_bind]
      rfl
    refine ⟨_, _, fs, _, b, hresume, hrun,
      hf.dropRc (u.awaited i n sem (.ready (.error e))) hi (fun j => ?_) ?_ rfl rfl hother, hb⟩
    · rw [System.awaited, Store.get?_erase]
    · rw [hguards, add_zero]
      rfl
  · have hresume : s.resume i n first cx =
        .ok (.ready (.ok i), s.become sem i (.permit n)) := by
      rw [resume, hf.deref hi, ok_bind, hawait, Inner.fault_ok, ok_bind]
      rfl
    refine ⟨_, _, fs, _, b, hresume, hrun,
      hf.become (u.awaited i n sem (.ready (.ok ()))) hi (fun j => ?_) ?_ rfl rfl hother
        (fun hsome => by cases hsome), hb⟩
    · rw [System.awaited, Store.get?_erase]
      rfl
    · rw [hguards, add_zero, System.awaited, Store.sum_insert _ _ _ _ (Store.get?_fresh _)]
      exact add_comm ({n} : Multiset UInt32) _
  · have hresume : s.resume i n first cx =
        .ok (.pending, s.become sem i (.suspended n)) := by
      rw [resume, hf.deref hi, ok_bind, hawait, Inner.fault_ok, ok_bind]
      rfl
    refine ⟨_, _, fs, _, b, hresume, hrun,
      hf.become (u.awaited i n sem .pending) hi (fun j => ?_) ?_ rfl rfl hother
        (fun _ => hself rfl), hb⟩
    · rw [System.awaited, Store.get?_insert]
      rfl
    · rw [hguards]
      rfl

/-- Trying, which keeps the `Rc` in the permit or drops it. -/
theorem tryAcquire_spec (hP : ∀ n : UInt32, n.toNat ≤ Inner.maxPermits P) (h : System.Inv u a)
    (hf : Follows s u) (hi : s.holders.get? i = some .handle) (n : UInt32) :
    ∃ r t fs v b, s.tryAcquireManyOwned i n = .ok (r, t) ∧ Run System.BoundedStep u fs v ∧
      Follows t v ∧ System.Inv v b := by
  obtain ⟨o, v, hres, hv, -⟩ := System.tryAcquireMany_spec hP h n
  have hstep : u.BoundedStep (.tryAcquireMany n, .tried o) v :=
    h.boundedStep trivial (by rw [System.exec, hres]; rfl) rfl
  obtain ⟨⟨r, sem⟩, htry, hres⟩ := bind_eq_ok.mp hres
  have hhistory := Tracked.history_tryAcquire htry
  have htrack : ∀ j, j ≠ i → sem.history.track j = u.sem.history.track j := by
    intro j _
    rw [hhistory]
  have hresults := hf.results_other hi rfl
  rcases r with e | ⟨⟩
  · obtain ⟨-, rfl⟩ := Prod.mk.inj (Except.ok.inj hres)
    refine ⟨.error e, { s with rc := s.rc.set sem }.dropRc i, _, _, _, ?_, .single hstep,
      hf.dropRc { u with sem } hi hresults (add_zero _) rfl rfl htrack, hv⟩
    rw [tryAcquireManyOwned, hf.deref hi, ok_bind, htry]
    rfl
  · obtain ⟨-, rfl⟩ := Prod.mk.inj (Except.ok.inj hres)
    refine ⟨.ok i, s.become sem i (.permit n), _, _, _, ?_, .single hstep,
      hf.become ({ u with sem }.grant n).2 hi hresults ?_ rfl rfl htrack
        (fun hsome => by cases hsome), hv⟩
    · rw [tryAcquireManyOwned, hf.deref hi, ok_bind, htry]
      rfl
    · show (Store.sum (Store.insert _ _ _) _) + 0 = _
      rw [add_zero, Store.sum_insert _ _ _ _ (Store.get?_fresh _)]
      exact add_comm _ _

omit [Waker W] in
/-- A guard of the system for each guard among the holders. -/
theorem Follows.exists_guard (hf : Follows s u) (hi : s.holders.get? i = some (.permit n)) :
    ∃ p, u.permits.get? p = some n := by
  have hmem : n ∈ u.permits.sum fun n => ({n} : Multiset UInt32) := by
    rw [hf.guards, Store.sum_eq_add_erase _ _ _ _ hi]
    exact Multiset.mem_add.mpr (Or.inl (Multiset.mem_singleton_self n))
  obtain ⟨p, m, hp, hm⟩ := Store.exists_of_mem_sum hmem
  obtain rfl := Multiset.mem_singleton.mp hm
  exact ⟨p, hp⟩

/-- Dropping a guard gives its permits back before the `Rc` goes. -/
theorem dropPermit_spec (h : System.Inv u a) (hf : Follows s u)
    (hi : s.holders.get? i = some (.permit n)) :
    ∃ t p v b, s.drop i = .ok t ∧ u.permits.get? p = some n ∧
      u.BoundedStep (.dropPermit p, .unit) v ∧ Follows t v ∧ System.Inv v b := by
  obtain ⟨p, hp⟩ := hf.exists_guard hi
  obtain ⟨v, hres, hv, -⟩ := System.dropPermit_spec h hp
  have hstep : u.BoundedStep (.dropPermit p, .unit) v := by
    refine h.boundedStep ?_ (by rw [System.exec, hres]; rfl) rfl
    rw [System.Allowed, hp]
    rfl
  rw [System.dropPermit, hp] at hres
  obtain ⟨sem, hrelease, hres⟩ := bind_eq_ok.mp hres
  obtain rfl := Except.ok.inj hres
  have hhistory := Tracked.history_release hrelease
  refine ⟨{ s with rc := s.rc.set sem }.dropRc i, p, _, _, ?_, hp, hstep,
    hf.dropRc { u with sem, permits := u.permits.erase p } hi (hf.results_other hi rfl) ?_ rfl rfl
      (fun j _ => ?_), hv⟩
  · simp only [drop, hi]
    rw [hf.deref hi, ok_bind, hrelease]
    rfl
  · rw [Store.sum_eq_add_erase u.permits _ _ _ hp]
    exact add_comm _ _
  · rw [hhistory]

/-- Forgetting empties a guard, and drops the `Rc` all the same. -/
theorem forget_spec (h : System.Inv u a) (hf : Follows s u)
    (hi : s.holders.get? i = some (.permit n)) :
    ∃ t p v b, s.forget i = .ok t ∧ u.BoundedStep (.forget p, .unit) v ∧ Follows t v ∧
      System.Inv v b := by
  obtain ⟨p, hp⟩ := hf.exists_guard hi
  obtain ⟨v, hres, hv, -⟩ := System.forget_spec h hp
  have hstep : u.BoundedStep (.forget p, .unit) v := by
    refine h.boundedStep ?_ (by rw [System.exec, hres]; rfl) rfl
    rw [System.Allowed, hp]
    rfl
  have hforget : u.forget p = .ok
      { u with permits := u.permits.erase p, forgotten := u.forgotten + n.toNat } := by
    rw [System.forget, System.dropPermit, hp]
    simp only [Store.get?_modify_self, hp, Option.map_some]
    rw [← Store.erase_modify u.permits p fun _ => 0]
    rfl
  obtain rfl := Except.ok.inj (hforget.symm.trans hres)
  have hgone : Follows ({ s with rc := s.rc.set u.sem }.dropRc i)
      { u with permits := u.permits.erase p } := by
    refine hf.dropRc { u with permits := u.permits.erase p } hi (hf.results_other hi rfl) ?_ rfl
      rfl (fun j _ => rfl)
    rw [Store.sum_eq_add_erase u.permits _ _ _ hp]
    exact add_comm _ _
  have hdrop : s.forget i = .ok
      { { s with rc := s.rc.set u.sem }.dropRc i with forgotten := s.forgotten + n.toNat } := by
    rw [forget, drop]
    simp only [Store.get?_modify_self, hi, Option.map_some]
    rw [hf.deref hi, dropRc, ← Store.erase_modify s.holders i fun _ => .permit 0]
    rfl
  exact ⟨_, p, _, _, hdrop, hstep, { hgone with forgotten := congrArg (· + _) hf.forgotten }, hv⟩

/-- Dropping a holder, whatever it is. -/
theorem drop_spec (h : System.Inv u a) (hf : Follows s u) (hi : s.holders.get? i = some holder) :
    ∃ t fs v b, s.drop i = .ok t ∧ Run System.BoundedStep u fs v ∧ Follows t v ∧
      System.Inv v b := by
  have hrc : s.rc.set u.sem = s.rc := by
    rw [hf.sem]
    rfl
  have hplain : holder.awaits = none → holder.guards = 0 → Follows (s.dropRc i) u := by
    intro hawaits hguards
    have hgone := hf.dropRc u hi (hf.results_other hi hawaits) (by rw [hguards, add_zero]) rfl rfl
      fun _ _ => rfl
    rwa [hrc] at hgone
  cases holder with
  | handle =>
    refine ⟨s.dropRc i, [], u, a, ?_, .nil, hplain rfl rfl, h⟩
    rw [drop, hi]
    rfl
  | unresumed n =>
    refine ⟨s.dropRc i, [], u, a, ?_, .nil, hplain rfl rfl, h⟩
    rw [drop, hi]
    rfl
  | suspended n =>
    have hn : u.results.get? i = some n := by
      rw [hf.results, hi]
      rfl
    obtain ⟨q, hq, -⟩ := Fair.exists_of_sizes (a := a) (i := i) (n := n) (h.results ▸ hn)
    obtain ⟨v, hres, hv, -⟩ := System.dropAcquire_spec h hq
    have hstep : u.BoundedStep (.dropAcquire i, .unit) v := by
      refine h.boundedStep ?_ (by rw [System.exec, hres]; rfl) rfl
      obtain ⟨f, hf, -⟩ := h.exists_future hq
      rw [System.Allowed, hf]
      rfl
    obtain ⟨sem, hdrop, hres⟩ := bind_eq_ok.mp hres
    obtain rfl := Except.ok.inj hres
    have hhistory := Tracked.history_drop hdrop
    refine ⟨{ s with rc := s.rc.set sem }.dropRc i, _, _, _, ?_, .single hstep,
      hf.dropRc { u with sem, results := u.results.erase i } hi (fun j => ?_) (add_zero _) rfl rfl
        (fun j _ => ?_), hv⟩
    · rw [drop, hi]
      simp only
      rw [hf.deref hi, ok_bind, hdrop]
      rfl
    · rw [Store.get?_erase]
    · rw [hhistory]
  | permit n =>
    obtain ⟨t, p, v, b, hres, -, hstep, ht, hv⟩ := dropPermit_spec h hf hi
    exact ⟨t, _, v, b, hres, .single hstep, ht, hv⟩

omit [Waker W] in
/-- A new handle is a new reference. -/
theorem clone_spec (hf : Follows s u) {new : Addr} (hi : s.holders.get? i = some holder)
    (hnew : s.holders.get? new = none) : Follows (s.clone new) u where
  sem := hf.sem
  results j := by
    rw [clone, Store.get?_insert, hf.results]
    split_ifs with hj
    · rw [hj, hnew]
      rfl
    · rfl
  guards := by
    rw [clone, Store.sum_insert _ _ _ _ hnew, hf.guards]
    exact (zero_add _).symm
  added := hf.added
  forgotten := hf.forgotten
  counts := by
    have hpos : 0 < s.holders.sum fun _ => 1 := by
      rw [Store.sum_eq_add_erase _ _ _ _ hi]
      omega
    rw [clone, Store.sum_insert _ _ _ _ hnew, Nat.add_comm]
    exact hf.counts.clone hpos
  unfinished j m hj := by
    rw [clone, Store.get?_insert] at hj
    split_ifs at hj
    · cases hj
    · exact hf.unfinished j m hj

/-- **One call** of a holder returns, and is a run of the system. -/
theorem exec_spec (hP : ∀ n : UInt32, n.toNat ≤ Inner.maxPermits P) (h : System.Inv u a)
    (hf : Follows s u) (c : Action W) (hc : s.Allowed c)
    (hmax : s.total + c.amount ≤ Inner.maxPermits P) :
    ∃ o t fs v b, s.exec c = .ok (o, t) ∧ Run System.BoundedStep u fs v ∧ Follows t v ∧
      System.Inv v b := by
  cases c with
  | clone i new => exact ⟨_, _, [], u, a, rfl, .nil, clone_spec hf hc.1 hc.2, h⟩
  | addPermits i n =>
    rw [← hf.total] at hmax
    obtain ⟨v, hres, hv, -⟩ := System.addPermits_spec (n := n) h hmax
    have hstep : u.BoundedStep (.addPermits n, .unit) v :=
      ⟨⟨trivial, by rw [System.exec, hres]; rfl⟩, hmax⟩
    obtain ⟨sem, hrelease, hres⟩ := bind_eq_ok.mp hres
    obtain rfl := Except.ok.inj hres
    refine ⟨.unit, _, _, _, _, ?_, .single hstep, hf.set (Tracked.history_release hrelease), hv⟩
    rw [exec, addPermits, hf.deref hc, ok_bind, hrelease]
    rfl
  | close i =>
    obtain ⟨v, hres, hv, -⟩ := System.close_spec h
    have hstep : u.BoundedStep (.close, .unit) v :=
      h.boundedStep trivial (by rw [System.exec, hres]; rfl) rfl
    obtain ⟨sem, hclose, hres⟩ := bind_eq_ok.mp hres
    obtain rfl := Except.ok.inj hres
    refine ⟨.unit, _, _, _, _, ?_, .single hstep,
      hf.set (m := 0) (Tracked.history_close hclose), hv⟩
    rw [exec, close, hf.deref hc, ok_bind, hclose]
    rfl
  | acquireManyOwned i n =>
    exact ⟨_, _, [], u, a, rfl, .nil, hf.replace hc rfl rfl rfl, h⟩
  | tryAcquireManyOwned i n =>
    obtain ⟨r, t, fs, v, b, hres, hrun, ht, hv⟩ := tryAcquire_spec hP h hf hc n
    exact ⟨_, t, fs, v, b, by rw [exec, hres]; rfl, hrun, ht, hv⟩
  | poll i cx =>
    obtain ⟨holder, hi, hfuture⟩ := (Option.any_eq_true _ _).mp hc
    cases holder with
    | unresumed n =>
      obtain ⟨r, t, fs, v, b, hres, hrun, ht, hv⟩ :=
        resume_spec (n := n) hP h hf true hi cx
      exact ⟨_, t, fs, v, b, by rw [exec, poll, hi]; simp only; rw [hres]; rfl, hrun, ht, hv⟩
    | suspended n =>
      obtain ⟨r, t, fs, v, b, hres, hrun, ht, hv⟩ :=
        resume_spec (n := n) hP h hf false hi cx
      exact ⟨_, t, fs, v, b, by rw [exec, poll, hi]; simp only; rw [hres]; rfl, hrun, ht, hv⟩
    | handle => cases hfuture
    | permit n => cases hfuture
  | forget i =>
    obtain ⟨holder, hi, hpermit⟩ := (Option.any_eq_true _ _).mp hc
    cases holder with
    | permit n =>
      obtain ⟨t, p, v, b, hres, hstep, ht, hv⟩ := forget_spec h hf hi
      exact ⟨_, t, _, v, b, by rw [exec, hres]; rfl, .single hstep, ht, hv⟩
    | _ => cases hpermit
  | drop i =>
    obtain ⟨holder, hi⟩ := Option.isSome_iff_exists.mp hc
    obtain ⟨t, fs, v, b, hres, hrun, ht, hv⟩ := drop_spec h hf hi
    exact ⟨_, t, fs, v, b, by rw [exec, hres]; rfl, hrun, ht, hv⟩

/-! ### Runs -/

/-- The reference count of a state that follows the system. -/
theorem Follows.run {p : ℕ} {es : List (Action W × Output)} {t : Owned .w64 W}
    (hp : p ≤ Inner.maxPermits .w64) (hrun : Run BoundedStep (Owned.new .w64 W p) es t) :
    ∃ fs v, Run System.BoundedStep (System.new .w64 W p) fs v ∧ Follows t v := by
  have key : ∃ fs v, Run System.BoundedStep (System.new .w64 W p) fs v ∧
      (Follows t v ∧ ∃ b, System.Inv v b) := by
    refine hrun.simulate_many (R := fun s u => Follows s u ∧ ∃ a, System.Inv u a) ?_
      ⟨.new p, _, (System.new_inv hp).1⟩
    rintro s ⟨c, o⟩ t u ⟨hf, a, h⟩ ⟨⟨hc, hres⟩, hmax⟩
    obtain ⟨o', t', fs, v, b, hres', hrun', ht, hv⟩ :=
      exec_spec System.toNat_le_maxPermits h hf c hc hmax
    obtain ⟨-, rfl⟩ := Prod.mk.inj (Except.ok.inj (hres.symm.trans hres'))
    exact ⟨fs, v, hrun', ht, b, hv⟩
  obtain ⟨fs, v, hrun', ht, -⟩ := key
  exact ⟨fs, v, hrun', ht⟩

/-- **Owned permits are borrowed permits.**  What a run of holders does to the semaphore, some run
of clients that borrow it does too: the semaphore is the same, with the wakers it has woken and the
history of its futures, the same futures are pending, the same permits circulate, and each guard has
its counterpart. -/
theorem owned_refines {p : ℕ} {es : List (Action W × Output)} {t : Owned .w64 W}
    (hp : p ≤ Inner.maxPermits .w64) (hrun : Run BoundedStep (Owned.new .w64 W p) es t) :
    ∃ fs u, Run System.BoundedStep (System.new .w64 W p) fs u ∧ u.sem = t.rc.value ∧
      u.total = t.total ∧ u.added = t.added ∧ u.forgotten = t.forgotten ∧
      (∀ i n, u.results.get? i = some n ↔ t.holders.get? i = some (.suspended n)) ∧
      (u.permits.sum fun n => ({n} : Multiset UInt32)) = t.holders.sum Holder.guards := by
  obtain ⟨fs, u, hrun', hf⟩ := Follows.run hp hrun
  refine ⟨fs, u, hrun', hf.sem, hf.total, hf.added, hf.forgotten, fun i n => ?_, hf.guards⟩
  rw [hf.results]
  cases t.holders.get? i with
  | none => simp
  | some holder => cases holder <;> simp [Holder.awaits]

/-- **The life of a shared semaphore.**  No call of a holder faults within the maximum, so nobody
reaches a semaphore that has been dropped.  It is dropped exactly when nobody holds it any more;
then nobody waits, no future is left in its memory, and it has back all permits that have not been
forgotten. -/
theorem owned_lifetime {p : ℕ} {es : List (Action W × Output)} {t : Owned .w64 W}
    (hp : p ≤ Inner.maxPermits .w64) (hrun : Run BoundedStep (Owned.new .w64 W p) es t) :
    (∀ c, t.Allowed c → t.total + c.amount ≤ Inner.maxPermits .w64 →
        ∃ o u, t.BoundedStep (c, o) u) ∧
      t.rc.strong = t.holders.dom.card ∧ (t.rc.dropped = true ↔ t.holders.dom = ∅) ∧
      (t.rc.dropped = true → t.rc.value.inner.WaitList [] ∧ t.rc.value.inner.acquires.dom = ∅ ∧
        t.rc.value.inner.availablePermits + t.forgotten = p + t.added) := by
  obtain ⟨fs, u, hrun', hf⟩ := Follows.run hp hrun
  obtain ⟨⟨a, h⟩, hbalance⟩ := System.balance_run hp hrun'
  have hcard : (t.holders.sum fun _ => 1) = t.holders.dom.card := by
    rw [Finset.card_eq_sum_ones]
    refine Finset.sum_congr rfl fun i hi => ?_
    obtain ⟨holder, hholder⟩ := Store.exists_get?_of_mem hi
    rw [hholder]
    rfl
  have hdropped : t.rc.dropped = true ↔ t.holders.dom = ∅ := by
    rw [hf.counts.dropped, hcard, Finset.card_eq_zero]
  refine ⟨fun c hc hmax => ?_, hf.counts.strong.trans hcard, hdropped, fun hd => ?_⟩
  · obtain ⟨o, v, -, -, -, hres, -⟩ := exec_spec System.toNat_le_maxPermits h hf c hc hmax
    exact ⟨o, v, ⟨hc, hres⟩, hmax⟩
  · have hempty := hdropped.mp hd
    have hnone : ∀ i, t.holders.get? i = none := fun i =>
      Store.not_mem_dom_iff.mp (hempty ▸ Finset.notMem_empty i)
    have hsizes : ∀ i, a.sizes.get? i = none := by
      intro i
      rw [← h.results, hf.results, hnone]
      rfl
    have hacquires : ∀ i, t.rc.value.inner.acquires.get? i = none := by
      intro i
      rw [← hf.sem]
      cases hget : u.sem.inner.acquires.get? i with
      | none => rfl
      | some f =>
        have hsize := hsizes i
        rw [Fair.sizes_of_get? (h.get? hget)] at hsize
        cases hsize
    have hdom : t.rc.value.inner.acquires.dom = ∅ :=
      Finset.eq_empty_of_forall_notMem fun i => Store.not_mem_dom_iff.mpr (hacquires i)
    have hwaiting : a.waiting = [] := by
      refine List.eq_nil_iff_forall_not_mem.mpr fun i hi => ?_
      obtain ⟨r, hr, -⟩ := h.models.sound.exists_of_mem hi
      have hsize := hsizes i
      rw [Fair.sizes_of_get? hr] at hsize
      cases hsize
    refine ⟨?_, hdom, ?_⟩
    · rw [← hf.sem]
      exact hwaiting ▸ h.models.refines.queue
    · have htotal : t.total = t.rc.value.inner.availablePermits := by
        rw [total, Store.sum, hempty, Store.sum, hdom]
        simp
      rw [← htotal, ← hf.total, ← hf.added, ← hf.forgotten]
      exact hbalance

/-- A handle is cloned; one future is served and becomes a permit, the other one is dropped while it
waits, and then the permit is dropped too. -/
theorem owned_lifetime_dropped : ∃ (es : List (Action ℕ × Output)) (t : Owned .w64 ℕ),
    Run BoundedStep (Owned.new .w64 ℕ 1) es t ∧ t.rc.dropped = true ∧
      t.rc.value.inner.WaitList [] ∧ t.rc.value.inner.acquires.dom = ∅ ∧
      t.rc.value.inner.availablePermits + t.forgotten = 1 + t.added := by
  have hcheck : (replay Owned.boundedCall (Owned.new .w64 ℕ 1) [.clone 0 1, .addPermits 0 2,
      .acquireManyOwned 0 3, .poll 0 5, .acquireManyOwned 1 2, .poll 1 6, .drop 1, .drop 0]).map
      (fun r => r.2.rc.dropped) = some true := by decide +kernel
  obtain ⟨⟨es, t⟩, hres, hdropped⟩ := Option.map_eq_some_iff.mp hcheck
  have hrun := run_of_replay boundedStep_of_boundedCall hres
  exact ⟨es, t, hrun, hdropped, (owned_lifetime (by decide) hrun).2.2.2 hdropped⟩

/-- A run that ends with a permit and a future that waits for another one. -/
theorem owned_refines_waiting : ∃ (es : List (Action ℕ × Output)) (t : Owned .w64 ℕ)
    (fs : List (Semaphore.Action ℕ × Output)) (u : System .w64 ℕ),
    Run BoundedStep (Owned.new .w64 ℕ 1) es t ∧ t.holders.get? 1 = some (.suspended 1) ∧
      Run System.BoundedStep (System.new .w64 ℕ 1) fs u ∧ u.sem = t.rc.value ∧
      u.results.get? 1 = some 1 := by
  have hcheck : (replay Owned.boundedCall (Owned.new .w64 ℕ 1) [.clone 0 1,
      .tryAcquireManyOwned 0 1, .acquireManyOwned 1 1, .poll 1 6]).map
      (fun r => r.2.holders.get? 1) = some (some (.suspended 1)) := by decide +kernel
  obtain ⟨⟨es, t⟩, hres, ht⟩ := Option.map_eq_some_iff.mp hcheck
  have hrun := run_of_replay boundedStep_of_boundedCall hres
  obtain ⟨fs, u, hrun', hsem, -, -, -, hresults, -⟩ := owned_refines (by decide) hrun
  exact ⟨es, t, fs, u, hrun, ht, hrun', hsem, (hresults 1 1).mpr ht⟩

end Owned

end LocalSync.Semaphore
