/-
  Which calls are safe to make with wakers that re-enter.

  The semaphore calls its wakers with the wait list borrowed.  So a call that
  wakes a send is not safe: the waker may drop the send (`Inv.not_safe`).

  The drop of the last `Tx` wakes the receiver only, at a point where nothing is
  left to do for a waker (`Inv.safe_dropTx`).  A send that completes wakes the
  receiver with all cells free.  As long as no other send has a slot assigned,
  nothing that its waker can do hands a slot on (`Resting.reenter`), and the
  call is safe.  Otherwise the waker can use up the free slots, let one more
  send wait, and drop the send that has a slot (`Inv.not_safe_poll`).

  Runs in which the wakers re-enter at the safe calls keep the invariant of the
  channel (`Inv.reentrantStep`), and `reentry_safe_iff` puts it all together.
-/
import LocalSync.Equiv.ReentrantChannel
import LocalSync.Equiv.Waking

namespace LocalSync.Mpsc.Bounded.Channel

open Lib
open LocalSync.Semaphore (Inner Tracked AcquireError Acquire Fair Request Host Slots)
open LocalSync.Semaphore.Reentrant (inner sem setSem setInner Calling)
open Reentrant

variable {P : PointerWidth} {T W : Type} [Waker W]
variable {b : ℕ} {s t : Channel P T W} {xs : List T} {i j : Addr} {c : Action T W} {o : Answer T}
  {w : World (Channel P T W)} {wake : World (Channel P T W) → Except Fault (World (Channel P T W))}
  {e : Fault}

/-! ### Calls that wake nobody, and wakers that do nothing -/

/-- **A call does what it does without the flags**, when it wakes nobody or the wakers return at
once. -/
theorem execWith_eq (hb : b ≤ Inner.maxPermits P) (h : Inv b w.state xs) (hfree : w.borrowed = ∅)
    (hfuture : ∀ i, c.future = some i → i ∉ w.busy) (hres : w.state.exec c = .ok (o, t))
    (hw : (∀ u, wake u = .ok u) ∨ t.wakes = w.state.wakes) :
    execWith wake w c = .ok { w with state := t } := by
  have hnot := World.notMem_of_free hfree
  have hlock := @World.notMem_lock_of_free _ w .queue hfree
  have hwake : ∀ {Q : World (Channel P T W) → Prop}, (∀ u, Q u → wake u = .ok u) ∨
      t.wakes = w.state.wakes := hw.imp (fun hidle u _ => hidle u) id
  cases c with
  | call c =>
    cases c with
    | clone tx new =>
      obtain ⟨-, rfl⟩ := Prod.mk.inj (Except.ok.inj hres)
      rfl
    | dropTx tx => exact (dropTx_agrees hfree tx).eq_ok hres hwake
    | isClosed tx =>
      obtain ⟨-, rfl⟩ := Prod.mk.inj (Except.ok.inj hres)
      rw [execWith, World.read_eq (hnot _)]
      rfl
    | recv cx =>
      exact (recv_agrees (Q := fun _ => True) hfree (fun _ => ⟨hlock (by decide),
        hlock (by decide), fun _ _ => trivial⟩) cx).eq_ok hres hwake
    | tryRecv =>
      exact (tryRecv_agrees (Q := fun _ => True) hfree fun _ => ⟨hlock (by decide),
        hlock (by decide), fun _ _ => trivial⟩).eq_ok hres hwake
    | close =>
      exact (closeRx_agrees (Q := fun _ => True) ⟨hnot _, hnot _, fun _ _ => trivial⟩).eq_ok hres
        hwake
    | dropRx => exact (dropRx_agrees hfree).eq_ok hres hwake
  | send i tx v =>
    obtain ⟨-, rfl⟩ := Prod.mk.inj (Except.ok.inj hres)
    rfl
  | poll i cx =>
    have hi := hfuture i rfl
    rw [execWith, Reentrant.pollSend_eq hfree hi (fun _ _ _ => h.awaitOne_quiet hb) hres wake]
    split_ifs with hwakes
    · rfl
    · rw [hw.resolve_right hwakes, ok_bind]
      exact congrArg Except.ok (World.letGo_hold (w := { w with state := t }) hi)
  | drop i =>
    exact (dropSend_agrees (Q := fun _ => True) (hfuture i rfl) ⟨hnot _, hnot _,
      fun _ _ => trivial⟩).eq_ok hres hwake

/-! ### Wakers that drop a send -/

/-- The send at `j` could be dropped, if the wait list were not borrowed. -/
def Stuck (j : Addr) (u : World (Channel P T W)) : Prop :=
  .waiters ∈ u.borrowed ∧ j ∉ u.busy ∧ u.state.Waits j

omit [Waker W] in
/-- Where the code of the semaphore calls its wakers, a send that waits is stuck. -/
theorem calling_stuck (hwait : .waiters ∉ w.borrowed) (hperm : .permits ∉ w.borrowed)
    (hj : j ∉ w.busy) (hwaits : w.state.Waits j) : Calling (Stuck j) w where
  waiters := hwait
  permits := hperm
  wakes t ht := by
    refine ⟨World.mem_lock _ _, hj, hwaits.1, ?_⟩
    show (t.acquires.map Acquire.queued).get? j = some true
    rw [ht]
    exact hwaits.2

/-- **A waker that drops the send** finds the wait list borrowed. -/
theorem wakeUp_stuck (hj : Stuck j w) {script : ℕ → List (Action T W)} {as : List (Action T W)}
    (hscript : script w.state.wakes = .drop j :: as) (depth : ℕ) :
    wakeUp script (depth + 1) w = .error alreadyBorrowed := by
  obtain ⟨hmem, hbusy, hsusp, hqueued⟩ := hj
  refine callback_of_error [] as hscript rfl ?_
  obtain ⟨⟨tx, stage⟩, hget⟩ : ∃ f, w.state.sends.get? j = some f := by
    cases hget : w.state.sends.get? j with
    | none => simp [suspended, hget] at hsusp
    | some f => exact ⟨f, rfl⟩
  have hready : Ready w (.drop j) := by
    refine ⟨rfl, ?_, fun i hi => ?_⟩
    · show (w.state.sends.get? j).isSome = true
      rw [hget]
      rfl
    · obtain rfl := Option.some.inj hi
      exact hbusy
  rw [reenter, if_pos hready, execWith, Reentrant.dropSend, hget]
  cases stage with
  | unresumed v => simp [suspended, hget] at hsusp
  | returned => simp [suspended, hget] at hsusp
  | suspended v =>
    rw [Store.get?_map] at hqueued
    obtain ⟨q, hq, hqueued⟩ := Option.map_eq_some_iff.mp hqueued
    have hderef : (inner ((w.hold j).modify fun s => { s with sends := s.sends.erase j })).deref j =
        .ok q := by
      show Inner.deref w.state.handles.chan.semaphore.inner j = _
      rw [Inner.deref, hq]
    simp only [Semaphore.Reentrant.dropAcquire, hderef, Inner.fault_ok, ok_bind, if_pos hqueued]
    rw [World.touch_of_mem (by exact hmem)]
    rfl

/-! ### Calls that are not safe -/

/-- **A call that wakes a send** fails with its first waker, when a waker that finds the send `j`
stuck fails. -/
theorem execWith_error (hb : b ≤ Inner.maxPermits P) (h : Inv b w.state xs) (hfree : w.borrowed = ∅)
    (hfuture : ∀ i, c.future = some i → i ∉ w.busy) (hres : w.state.exec c = .ok (o, t))
    (hc : w.state.Allowed c) (hdrop : ∀ tx, c ≠ .call (.dropTx tx)) (hpoll : ∀ i cx, c ≠ .poll i cx)
    (hne : t.wakes ≠ w.state.wakes) (hj : w.state.Waits j) (hbusy : j ∉ w.busy)
    (hcj : c.future ≠ some j) (hwake : ∀ u, Stuck j u → wake u = .error e) :
    execWith wake w c = .error e := by
  have hnot := World.notMem_of_free hfree
  have hlock := @World.notMem_lock_of_free _ w .queue hfree
  cases c with
  | call call =>
    cases call with
    | clone tx new =>
      obtain ⟨-, rfl⟩ := Prod.mk.inj (Except.ok.inj hres)
      exact absurd rfl hne
    | dropTx tx => exact absurd rfl (hdrop tx)
    | isClosed tx =>
      obtain ⟨-, rfl⟩ := Prod.mk.inj (Except.ok.inj hres)
      exact absurd rfl hne
    | recv cx =>
      exact (recv_agrees hfree (fun _ => calling_stuck (hlock (by decide)) (hlock (by decide))
        hbusy hj) cx).eq_error hres hne hwake
    | tryRecv =>
      exact (tryRecv_agrees hfree fun _ => calling_stuck (hlock (by decide)) (hlock (by decide))
        hbusy hj).eq_error hres hne hwake
    | close =>
      exact (closeRx_agrees (calling_stuck (hnot _) (hnot _) hbusy hj)).eq_error hres hne hwake
    | dropRx =>
      have hclose : Semaphore.Reentrant.close wake w = .error e := by
        obtain ⟨a, hslots⟩ := h.handles.semaphore
        obtain ⟨y, hres', hy⟩ := hslots.close
        refine (close_agrees (calling_stuck (hnot _) (hnot _) hbusy hj)).eq_error
          (congrArg Inner.Outcome.fault hres') (fun hlen => hne ?_) hwake
        refine h.wakes_call hb hslots (waiting_eq_nil_of_close hslots hres' hy ?_) hc hres nofun
        exact Nat.add_right_cancel hlen
      rw [execWith, Reentrant.dropRx, hclose]
      rfl
  | send i tx v =>
    obtain ⟨-, rfl⟩ := Prod.mk.inj (Except.ok.inj hres)
    exact absurd rfl hne
  | poll i cx => exact absurd rfl (hpoll i cx)
  | drop i =>
    have hji : j ≠ i := fun hji => hcj (congrArg some hji.symm)
    refine (dropSend_agrees (hfuture i rfl) (calling_stuck (hnot _) (hnot _) ?_
      ⟨?_, hj.2⟩)).eq_error
      hres hne hwake
    · exact fun hmem => (Finset.mem_insert.mp hmem).elim hji hbusy
    · show ({ w.state with sends := w.state.sends.erase i } : Channel P T W).suspended j = true
      rw [suspended_erase, Semaphore.resumed_of_ne hji]
      exact hj.1

/-- **A call that wakes a send is not safe**: the waker of the send may drop it. -/
theorem Inv.not_safe (hb : b ≤ Inner.maxPermits P) (h : Inv b s xs) (hc : s.Allowed c)
    (hdrop : ∀ tx, c ≠ .call (.dropTx tx)) (hpoll : ∀ i cx, c ≠ .poll i cx) (hwakes : s.Wakes c) :
    ¬ s.Safe c := by
  obtain ⟨o, t, hres, hne⟩ := hwakes
  obtain ⟨j, hj, hcj⟩ := h.exists_waits hb hc hres hdrop hpoll hne
  have herror : execWith (wakeUp (fun _ => [.drop j]) 1) (World.of s) c = .error alreadyBorrowed :=
    execWith_error hb h rfl (fun i _ => Finset.notMem_empty i) hres hc hdrop hpoll hne hj
      (Finset.notMem_empty j) hcj fun u hu => wakeUp_stuck hu rfl 0
  exact fun hsafe => hsafe _ 1 _ herror (Or.inl rfl)

/-! ### Calls that are safe -/

/-- Nothing is left to do for a waker once the last `Tx` is gone. -/
theorem wakeUp_of_no_tx (htxs : w.state.handles.txs = ∅)
    (hsends : ∀ i, w.state.sends.get? i = none) (script : ℕ → List (Action T W)) (depth : ℕ) :
    wakeUp script (depth + 1) w = .ok w := by
  have hskip : ∀ wake c, reenter wake w c = .ok w := fun wake c => if_neg fun hready => by
    obtain ⟨hre, hc, -⟩ := hready
    cases c with
    | call call => cases hre
    | send i tx v =>
      have hmem := hc.1
      rw [htxs] at hmem
      exact Finset.notMem_empty tx hmem
    | poll i cx => simp [Allowed, unfinished, hsends] at hc
    | drop i => simp [Allowed, hsends] at hc
  have hrun : ∃ u, wakeUp script (depth + 1) w = .ok u ∧ u = w :=
    callback_of_invariant (I := fun u => u = w) (fun wake u c hu => ⟨w, by rw [hu, hskip], rfl⟩) rfl
      depth
  obtain ⟨u, hres, rfl⟩ := hrun
  exact hres

/-- A waker that is called when a `Tx` is dropped has nothing to do. -/
theorem Inv.wakeUp_dropTx (h : Inv b s xs) {tx : ℕ} (hc : s.Allowed (.call (.dropTx tx)))
    (hlast : s.handles.chan.txCount = 1) (htxs : w.state.handles.txs = s.handles.txs.erase tx)
    (hsends : w.state.sends = s.sends) (script : ℕ → List (Action T W)) (depth : ℕ) :
    wakeUp script (depth + 1) w = .ok w := by
  obtain ⟨tx', htx'⟩ := Finset.card_eq_one.mp (h.handles.flow.count.symm.trans hlast)
  obtain rfl : tx = tx' := Finset.mem_singleton.mp (htx' ▸ hc.1)
  refine wakeUp_of_no_tx (by rw [htxs, htx', Finset.erase_singleton]) (fun i => ?_) script depth
  -- every send would borrow the `Tx`
  rw [hsends]
  by_contra hne
  obtain ⟨f, hf⟩ := Option.ne_none_iff_exists'.mp hne
  have hmem : i ∈ s.borrows tx := by
    have hftx := h.borrowed i f hf
    rw [htx', Finset.mem_singleton] at hftx
    rw [borrows, Finset.mem_filter, hf, Option.any_some, hftx]
    exact ⟨Store.mem_dom_of_get? hf, beq_self_eq_true tx⟩
  rw [hc.2] at hmem
  exact Finset.notMem_empty i hmem

theorem Inv.execWith_dropTx (h : Inv b s xs) {tx : ℕ} (hc : s.Allowed (.call (.dropTx tx)))
    (hres : s.exec (.call (.dropTx tx)) = .ok (o, t)) (script : ℕ → List (Action T W)) (depth : ℕ) :
    execWith (wakeUp script (depth + 1)) (World.of s) (.call (.dropTx tx)) = .ok (World.of t) :=
  (dropTx_agrees (w := World.of s) rfl tx).eq_ok hres <| Or.inl fun _ ⟨hlast, htxs, hsends⟩ =>
    h.wakeUp_dropTx hc hlast htxs hsends script depth

/-- **The drop of a `Tx` is safe**: when it calls a waker, it was the last one. -/
theorem Inv.safe_dropTx (h : Inv b s xs) {tx : ℕ} (hc : s.Allowed (.call (.dropTx tx)))
    (hres : s.exec (.call (.dropTx tx)) = .ok (o, t)) : s.Safe (.call (.dropTx tx)) := by
  intro script depth e herror
  cases depth with
  | zero =>
    have hagrees := dropTx_agrees (w := World.of s) rfl tx
    by_cases hwakes : t.wakes = s.wakes
    · cases (hagrees.eq_ok hres (Or.inr hwakes)).symm.trans herror
    · have hstuck : execWith (wakeUp script 0) (World.of s) (.call (.dropTx tx)) =
        .error .diverges :=
        hagrees.eq_error hres hwakes fun _ _ => rfl
      obtain rfl := Except.error.inj (hstuck.symm.trans herror)
      exact not_isBorrow_diverges
  | succ depth => cases (h.execWith_dropTx hc hres script depth).symm.trans herror

/-- A program whose cells are free, whose receiver has registered no waker, and in which the sends
`A` have a slot assigned. -/
structure Resting (b : ℕ) (A : Finset Addr) (u : World (Channel P T W)) : Prop where
  borrowed : u.borrowed = ∅
  inv : ∃ xs, Inv b u.state xs
  rxWaker : u.state.handles.chan.rxWaker = none
  assigned : u.state.assigned = A

namespace Resting

variable {A : Finset Addr}

/-- A send may be created. -/
theorem send (h : Resting b A w) {tx : ℕ} {v : T} (hc : w.state.Allowed (.send i tx v)) :
    Resting b A { w with state := w.state.setStage i tx (.unresumed v) } := by
  obtain ⟨xs, hinv⟩ := h.inv
  exact ⟨h.borrowed, ⟨xs, send_spec hinv hc.1 hc.2 v⟩, h.rxWaker,
    (hinv.assigned_send hc).trans h.assigned⟩

/-- A send may be polled. -/
theorem poll (hb : b ≤ Inner.maxPermits P) (h : Resting b A w) (hi : i ∉ w.busy) {cx : W}
    (hc : w.state.Allowed (.poll i cx)) (hres : w.state.exec (.poll i cx) = .ok (o, t))
    (wake : World (Channel P T W) → Except Fault (World (Channel P T W))) :
    execWith wake w (.poll i cx) = .ok { w with state := t } ∧
      Resting b (A.erase i) { w with state := t } := by
  obtain ⟨xs, hinv⟩ := h.inv
  obtain ⟨a, hslots⟩ := hinv.handles.semaphore
  obtain ⟨-, ys, -, hinv', -, hlen, -⟩ := hinv.poll_slots hb hslots hc hres
  have hrx : t.handles.chan.rxWaker = none ∧
      t.handles.chan.woken = w.state.handles.chan.woken := by
    cases step_effect hinv.handles.flow.count (e := (_, o)) ⟨hc, hres⟩ nofun with
    | unnoticed _ ht => exact ⟨ht.rxWaker.trans h.rxWaker, ht.woken⟩
    | rings _ ht =>
      refine ⟨ht.rxWaker, ht.woken.trans ?_⟩
      rw [h.rxWaker]
      exact List.append_nil _
  have hwakes : t.wakes = w.state.wakes := by rw [wakes, hlen, hrx.2, wakes]
  refine ⟨execWith_eq hb hinv h.borrowed (fun k hk => ?_) hres (Or.inr hwakes), h.borrowed,
    ⟨ys, hinv'⟩, hrx.1, ?_⟩
  · obtain rfl := Option.some.inj hk
    exact hi
  · rw [← h.assigned]
    exact hinv.assigned_poll hb hc hres

/-- A send without a slot may be dropped. -/
theorem drop (hb : b ≤ Inner.maxPermits P) (h : Resting b A w) (hi : i ∉ w.busy) (hA : i ∉ A)
    (hc : w.state.Allowed (.drop i)) (hres : w.state.exec (.drop i) = .ok (o, t))
    (wake : World (Channel P T W) → Except Fault (World (Channel P T W))) :
    execWith wake w (.drop i) = .ok { w with state := t } ∧
      Resting b A { w with state := t } := by
  obtain ⟨xs, hinv⟩ := h.inv
  obtain ⟨a, hslots⟩ := hinv.handles.semaphore
  obtain ⟨hinv', -⟩ := hinv.drop_slots hb hslots hc hres
  obtain ⟨hassigned, hwakes⟩ := hinv.drop_unassigned hb hc hres (h.assigned ▸ hA)
  have hrx : t.handles.chan.rxWaker = none := by
    cases step_effect hinv.handles.flow.count (e := (_, o)) ⟨hc, hres⟩ nofun with
    | unnoticed _ ht => exact ht.rxWaker.trans h.rxWaker
    | rings _ ht => exact ht.rxWaker
  refine ⟨execWith_eq hb hinv h.borrowed (fun k hk => ?_) hres (Or.inr hwakes), h.borrowed,
    ⟨xs, hinv'⟩, hrx, hassigned.trans h.assigned⟩
  obtain rfl := Option.some.inj hk
  exact hi

/-- **While no slot is assigned**, a waker may do what it likes. -/
theorem reenter (hb : b ≤ Inner.maxPermits P) (h : Resting b ∅ w)
    (wake : World (Channel P T W) → Except Fault (World (Channel P T W))) (c : Action T W) :
    ∃ u, Channel.reenter wake w c = .ok u ∧ Resting b ∅ u := by
  by_cases hready : Ready w c
  · rw [Channel.reenter, if_pos hready]
    obtain ⟨hre, hc, hbusy⟩ := hready
    obtain ⟨xs, hinv⟩ := h.inv
    obtain ⟨o, t, -, hres, -⟩ := exec_spec hb hinv hc
    cases c with
    | call call => cases hre
    | send i tx v => exact ⟨_, rfl, h.send hc⟩
    | poll i cx => exact ⟨_, h.poll hb (hbusy i rfl) hc hres wake⟩
    | drop i => exact ⟨_, h.drop hb (hbusy i rfl) (Finset.notMem_empty i) hc hres wake⟩
  · exact ⟨w, if_neg hready, h⟩

end Resting

/-- **A poll that wakes the receiver** has sent its value on an open channel. -/
theorem Inv.poll_rings (hb : b ≤ Inner.maxPermits P) (h : Inv b s xs) {cx : W}
    (hc : s.Allowed (.poll i cx)) (hres : s.exec (.poll i cx) = .ok (o, t))
    (hne : t.wakes ≠ s.wakes) :
    Resting b (s.assigned.erase i) ((World.of t).hold i) ∧ t.handles.chan.isClosed = false := by
  obtain ⟨a, hslots⟩ := h.handles.semaphore
  obtain ⟨first, ys, hfirst, hinv, hslots', hlen, hwoken⟩ := h.poll_slots hb hslots hc hres
  have hchan : t.handles.chan.woken ≠ s.handles.chan.woken := fun heq => hne <| by
    rw [wakes, hlen, heq, wakes]
  refine ⟨⟨rfl, ⟨ys, hinv⟩, ?_, h.assigned_poll hb hc hres⟩, ?_⟩
  · cases step_effect h.handles.flow.count (e := (_, o)) ⟨hc, hres⟩ (fun _ heq => by cases heq) with
    | unnoticed _ ht => exact absurd ht.woken hchan
    | rings _ ht => exact ht.rxWaker
  · have hready : (a.awaitOne i first cx).1 = .ready (.ok ()) := by
      by_contra hnot
      exact hchan (hwoken hnot)
    obtain ⟨y, -, hy⟩ := hslots.awaitOne hb hfirst cx
    rw [hready] at hy
    have hopen : a.closed = false := Bool.eq_false_iff.mpr fun hclosed => by cases hy.1.mp hclosed
    show t.handles.chan.semaphore.inner.isClosed = false
    rw [hslots'.isClosed, Slots.closed_awaitOne, hopen]

/-- The poll of a send, up to the waker of the receiver. -/
theorem Inv.execWith_poll (hb : b ≤ Inner.maxPermits P) (h : Inv b s xs) {cx : W}
    (hres : s.exec (.poll i cx) = .ok (o, t))
    (wake : World (Channel P T W) → Except Fault (World (Channel P T W))) :
    execWith wake (World.of s) (.poll i cx) = if t.wakes = s.wakes then .ok (World.of t)
      else wake ((World.of t).hold i) >>= fun u => .ok (u.letGo i) :=
  Reentrant.pollSend_eq rfl (Finset.notMem_empty i) (fun _ _ _ => h.awaitOne_quiet hb) hres wake

/-- A waker that finds no slot assigned returns, whatever it does. -/
theorem Resting.wakeUp (hb : b ≤ Inner.maxPermits P) (h : Resting b ∅ w)
    (script : ℕ → List (Action T W)) (depth : ℕ) :
    ∃ u, Channel.wakeUp script (depth + 1) w = .ok u ∧ Resting b ∅ u :=
  callback_of_invariant (fun wake _ c hu => hu.reenter hb wake c) h depth

/-- **A poll is safe** while no other send has a slot assigned. -/
theorem Inv.safe_poll (hb : b ≤ Inner.maxPermits P) (h : Inv b s xs) {cx : W}
    (hc : s.Allowed (.poll i cx)) (hsub : s.assigned ⊆ {i}) : s.Safe (.poll i cx) := by
  intro script depth e herror
  obtain ⟨o, t, -, hres, -⟩ := exec_spec hb h hc
  rw [h.execWith_poll hb hres] at herror
  by_cases hwakes : t.wakes = s.wakes
  · rw [if_pos hwakes] at herror
    cases herror
  rw [if_neg hwakes] at herror
  obtain ⟨hrest, -⟩ := h.poll_rings hb hc hres hwakes
  rw [(Finset.erase_eq_empty_iff _ _).mpr (Finset.subset_singleton_iff.mp hsub)] at hrest
  cases depth with
  | zero =>
    obtain rfl := Except.error.inj herror
    exact not_isBorrow_diverges
  | succ depth =>
    obtain ⟨u, hu, -⟩ := hrest.wakeUp hb script depth
    rw [hu] at herror
    cases herror

/-! ### Polls that are not safe -/

/-- **A fresh send is polled** for the first time: it takes a slot, or it waits for one. -/
theorem Resting.poll_fresh (hb : b ≤ Inner.maxPermits P) {A : Finset Addr} (h : Resting b A w)
    (hopen : w.state.handles.chan.isClosed = false) {tx : ℕ} {v : T}
    (hself : w.state.sends.get? i = some { tx, stage := .unresumed v }) (hbusy : i ∉ w.busy)
    (cx : W) :
    ∃ t, (∀ wake, Channel.reenter wake w (.poll i cx) = .ok { w with state := t }) ∧
      Resting b A { w with state := t } ∧ t.handles.chan.isClosed = false ∧
      (∀ k, k ≠ i → t.sends.get? k = w.state.sends.get? k) ∧
      (0 < w.state.available → t.available = w.state.available - 1) ∧
      (w.state.available = 0 → t.suspended i = true) := by
  obtain ⟨xs, hinv⟩ := h.inv
  have hpoll : w.state.Allowed (.poll i cx) := by
    show w.state.unfinished i = true
    rw [unfinished, hself]
    rfl
  obtain ⟨o, t, -, hres, -⟩ := exec_spec hb hinv hpoll
  obtain ⟨a, hslots⟩ := hinv.handles.semaphore
  obtain ⟨first, zs, hfirst, -, hslots', -⟩ := hinv.poll_slots hb hslots hpoll hres
  have hidle : w.state.suspended i = false := by
    rw [suspended, hself]
    rfl
  obtain rfl : first = true := by
    rw [hidle] at hfirst
    simpa using hfirst
  have hclosed : a.closed = false := by
    rw [← hslots.isClosed]
    exact hopen
  have havailable : w.state.available = a.available := hslots.models.refines.availablePermits
  have havailable' : t.available = (a.awaitOne i true cx).2.available :=
    hslots'.models.refines.availablePermits
  -- the send waits for nothing yet, so it has no slot assigned
  have hA : i ∉ A := by
    rw [← h.assigned]
    intro hmem
    obtain ⟨r, hr⟩ := Store.exists_get?_of_mem ((mem_assigned hslots).mp hmem).1
    rw [(hslots.suspended_of_get? hr).1] at hidle
    cases hidle
  have hpolled := h.poll hb hbusy hpoll hres
  refine ⟨t, fun wake => ?_, ?_, ?_, fun k hk => sends_poll hres hk, fun hpos => ?_, fun hzero => ?_⟩
  · have hready : Ready w (.poll i cx : Action T W) := ⟨rfl, hpoll, fun k hk => by
      obtain rfl := Option.some.inj hk
      exact hbusy⟩
    rw [Channel.reenter, if_pos hready]
    exact (hpolled wake).1
  · rw [← Finset.erase_eq_of_notMem hA]
    exact (hpolled .ok).2
  · show t.handles.chan.semaphore.inner.isClosed = false
    rw [hslots'.isClosed, Slots.closed_awaitOne, hclosed]
  · rw [havailable', (hslots.awaitOne_taken hidle hclosed (by omega) cx).2, havailable]
  · have hmem : i ∈ (a.awaitOne i true cx).2.waiting := by
      rw [Slots.awaitOne_queues hclosed (havailable.symm.trans hzero)]
      exact List.mem_append_right _ (List.mem_singleton_self i)
    obtain ⟨r, hr, -⟩ := hslots'.models.sound.exists_of_mem hmem
    exact (hslots'.suspended_of_get? hr).1

/-- **A fresh send** is created and polled. -/
theorem Resting.fresh (hb : b ≤ Inner.maxPermits P) {A : Finset Addr} (h : Resting b A w)
    (hopen : w.state.handles.chan.isClosed = false) (hi : w.state.sends.get? i = none)
    (hbusy : i ∉ w.busy) (v : T) (cx : W) :
    ∃ tx t, (∀ wake, [.send i tx v, .poll i cx].foldlM (Channel.reenter wake) w =
        .ok { w with state := t }) ∧ Resting b A { w with state := t } ∧
      t.handles.chan.isClosed = false ∧
      (∀ k, k ≠ i → t.sends.get? k = w.state.sends.get? k) ∧
      (0 < w.state.available → t.available = w.state.available - 1) ∧
      (w.state.available = 0 → t.suspended i = true) := by
  obtain ⟨xs, hinv⟩ := h.inv
  obtain ⟨tx, htx⟩ : w.state.handles.txs.Nonempty := by
    rw [Finset.nonempty_iff_ne_empty]
    intro hempty
    rw [hinv.handles.flow.no_tx hempty] at hopen
    cases hopen
  have hsend : w.state.Allowed (.send i tx v) := ⟨htx, hi⟩
  have hready : Ready w (.send i tx v) := ⟨rfl, hsend, fun k hk => by
    obtain rfl := Option.some.inj hk
    exact hbusy⟩
  obtain ⟨t, hgo, hrest, hopen', hothers, htaken, hqueued⟩ := (h.send hsend).poll_fresh hb hopen
    (Store.get?_insert_self _ _ _) hbusy cx
  refine ⟨tx, t, fun wake => ?_, hrest, hopen', fun k hk => ?_, htaken, hqueued⟩
  · have hcreate : Channel.reenter wake w (.send i tx v) =
        .ok { w with state := w.state.setStage i tx (.unresumed v) } := by
      rw [Channel.reenter, if_pos hready]
      rfl
    rw [List.foldlM_cons, hcreate, ok_bind, List.foldlM_cons, hgo]
    rfl
  · rw [hothers k hk]
    exact Store.get?_insert_of_ne _ _ hk

/-- **The free slots are used up**, one fresh send after the other. -/
theorem Resting.fill (hb : b ≤ Inner.maxPermits P) {A : Finset Addr} (v : T) (cx : W) (n : Addr)
    (k : ℕ) : ∀ {w : World (Channel P T W)}, Resting b A w → w.state.handles.chan.isClosed = false →
      w.state.sends.get? n = none → w.state.available = k →
      ∃ (as : List (Action T W)) (t : Channel P T W),
        (∀ wake, as.foldlM (Channel.reenter wake) w = .ok { w with state := t }) ∧
        Resting b A { w with state := t } ∧ t.handles.chan.isClosed = false ∧
        t.sends.get? n = none ∧ t.available = 0 := by
  induction k with
  | zero =>
    intro w h hopen hn hzero
    exact ⟨[], w.state, fun wake => rfl, h, hopen, hn, hzero⟩
  | succ k ih =>
    intro w h hopen hn hk
    obtain ⟨i, hi⟩ := Infinite.exists_notMem_finset (insert n (w.state.sends.dom ∪ w.busy))
    simp only [Finset.mem_insert, Finset.mem_union, not_or] at hi
    obtain ⟨hin, hdom, hbusy⟩ := hi
    obtain ⟨tx, t, hrun, hrest, hopen', hsends, hdown, -⟩ :=
      h.fresh hb hopen (Store.not_mem_dom_iff.mp hdom) hbusy v cx
    have havailable := hdown (by omega)
    obtain ⟨as, t', hrun', hrest', hopen'', hn', hzero⟩ := ih hrest hopen'
      ((hsends n fun hni => hin hni.symm).trans hn) (by
        show t.available = k
        omega)
    refine ⟨[.send i tx v, .poll i cx] ++ as, t', fun wake => ?_, hrest', hopen'', hn', hzero⟩
    rw [List.foldlM_append, hrun wake, ok_bind, hrun' wake]

/-- When the free slots are used up, one more send waits. -/
theorem Resting.crowd (hb : b ≤ Inner.maxPermits P) {A : Finset Addr} (h : Resting b A w)
    (hopen : w.state.handles.chan.isClosed = false) {n : Addr} (hn : w.state.sends.get? n = none)
    (hbusy : n ∉ w.busy) (v : T) (cx : W) :
    ∃ (as : List (Action T W)) (t : Channel P T W),
      (∀ wake, as.foldlM (Channel.reenter wake) w = .ok { w with state := t }) ∧
      Resting b A { w with state := t } ∧ t.handles.chan.isClosed = false ∧
      t.suspended n = true := by
  obtain ⟨as, t, hrun, hrest, hopen', hnone, hzero⟩ := h.fill hb v cx n _ hopen hn rfl
  obtain ⟨tx, t', hrun', hrest', hopen'', -, -, hsusp⟩ := hrest.fresh hb hopen' hnone hbusy v cx
  refine ⟨as ++ [.send n tx v, .poll n cx], t', fun wake => ?_, hrest', hopen'', hsusp hzero⟩
  rw [List.foldlM_append, hrun wake, ok_bind, hrun' wake]

/-- **A poll that wakes the receiver is not safe** when another send has a slot assigned: the waker
of the receiver uses up the free slots, lets one more send wait, and drops the one with the slot. -/
theorem Inv.not_safe_poll (hb : b ≤ Inner.maxPermits P) (h : Inv b s xs) {cx : W}
    (hc : s.Allowed (.poll i cx)) (hwakes : s.Wakes (.poll i cx)) (hj : j ∈ s.assigned)
    (hji : j ≠ i) : ¬ s.Safe (.poll i cx) := by
  obtain ⟨o, t, hres, hne⟩ := hwakes
  obtain ⟨f, -, hf⟩ := (Option.any_eq_true _ _).mp hc
  obtain ⟨v, -⟩ := Option.isSome_iff_exists.mp hf
  obtain ⟨hrest, hopen⟩ := h.poll_rings hb hc hres hne
  obtain ⟨u, hu⟩ : ∃ u, u = (World.of t).hold i := ⟨_, rfl⟩
  have hbusy : ∀ k, k ≠ i → k ∉ u.busy := fun k hk => by
    rw [hu]
    exact fun hmem => (Finset.mem_insert.mp hmem).elim hk (Finset.notMem_empty k)
  have hopen : u.state.handles.chan.isClosed = false := hu ▸ hopen
  rw [← hu] at hrest
  obtain ⟨n, hn⟩ := Infinite.exists_notMem_finset (insert i u.state.sends.dom)
  obtain ⟨hni, hdom⟩ := not_or.mp (mt Finset.mem_insert.mpr hn)
  have hnone := Store.not_mem_dom_iff.mp hdom
  obtain ⟨as, t', hrun, hrest', hopen', hsusp⟩ := hrest.crowd hb hopen hnone (hbusy n hni) v cx
  -- the slot of `j` is still assigned, and dropping `j` hands it on
  obtain ⟨ys, h'⟩ := hrest'.inv
  obtain ⟨a, hslots⟩ := h'.handles.semaphore
  have hassigned : t'.assigned = u.state.assigned := hrest'.assigned.trans hrest.assigned.symm
  have hju : j ∈ u.state.assigned := hrest.assigned ▸ Finset.mem_erase.mpr ⟨hji, hj⟩
  have hndom : n ∉ t'.assigned := fun hmem => hdom (Finset.mem_filter.mp (hassigned ▸ hmem)).1
  have hwait := mem_waiting hslots hopen' hsusp hndom
  have hjt : j ∈ t'.assigned := hassigned ▸ hju
  have hdrop : t'.Allowed (.drop j) := (t'.sends.mem_dom j).mp (Finset.mem_filter.mp hjt).1
  obtain ⟨o', t'', -, hres', -⟩ := exec_spec hb h' hdrop
  have hne' := h'.wakes_drop hb hslots hjt hwait hdrop hres'
  let script : ℕ → List (Action T W) := fun _ => .drop n :: as ++ [.drop j]
  have hskip : ∀ wake, reenter wake u (.drop n : Action T W) = .ok u := fun wake =>
    if_neg fun hready => by
      have hsome : (u.state.sends.get? n).isSome = true := hready.2.1
      rw [hnone] at hsome
      cases hsome
  have hready : Ready { u with state := t' } (.drop j : Action T W) :=
    ⟨rfl, hdrop, fun k hk => by
      obtain rfl := Option.some.inj hk
      exact hbusy j hji⟩
  have hjn : Action.future (.drop j : Action T W) ≠ some n := fun heq => by
    obtain rfl := Option.some.inj heq
    exact hndom hjt
  -- the waker of the new send drops it while the wait list is borrowed
  have hfail : reenter (wakeUp script 1) { u with state := t' } (.drop j) =
      .error alreadyBorrowed := by
    rw [reenter, if_pos hready]
    exact execWith_error hb h' hrest'.borrowed hready.2.2 hres' hdrop nofun nofun hne'
      (waits_of_mem hslots hwait) (hbusy n hni) hjn fun v hv => wakeUp_stuck hv rfl 0
  have hwake : wakeUp script 2 u = .error alreadyBorrowed := by
    refine callback_of_error (.drop n :: as) [] rfl ?_ hfail
    rw [List.foldlM_cons]
    exact bind_eq_ok.mpr ⟨u, hskip _, hrun _⟩
  have herror : execWith (wakeUp script 2) (World.of s) (.poll i cx) = .error alreadyBorrowed := by
    rw [h.execWith_poll hb hres, if_neg hne, ← hu, hwake]
    rfl
  exact fun hsafe => hsafe script 2 _ herror (Or.inl rfl)

/-! ### Runs -/

/-- **A step with re-entering wakers keeps the invariant.** -/
theorem Inv.reentrantStep (hb : b ≤ Inner.maxPermits P) (h : Inv b s xs)
    {e : Action T W × (ℕ → List (Action T W))} (hstep : s.ReentrantStep e t) :
    ∃ ys, Inv b t ys := by
  obtain ⟨c, script⟩ := e
  obtain ⟨hc, hclear, depth, hrun⟩ := hstep
  obtain ⟨o, t', ys, hres, hinv, -⟩ := exec_spec hb h hc
  -- the step is the one without the flags, unless a waker does something
  have hplain : execWith (wakeUp script (depth + 1)) (World.of s) c = .ok (World.of t') →
      ∃ ys, Inv b t ys := fun heq => by
    have hworld : World.of t = World.of t' := Except.ok.inj (hrun.symm.trans heq)
    obtain rfl : t = t' := congrArg World.state hworld
    exact ⟨ys, hinv⟩
  by_cases hwakes : t'.wakes = s.wakes
  · exact hplain (execWith_eq hb h rfl (fun i _ => Finset.notMem_empty i) hres (Or.inr hwakes))
  rcases hclear ⟨o, t', hres, hwakes⟩ with hclear | hempty
  · cases c with
    | call call =>
      cases call with
      | dropTx tx => exact hplain (h.execWith_dropTx hc hres script depth)
      | _ => exact absurd hclear id
    | send i tx v => exact absurd hclear id
    | drop i => exact absurd hclear id
    | poll i cx =>
      obtain ⟨hrest, -⟩ := h.poll_rings hb hc hres hwakes
      rw [(Finset.erase_eq_empty_iff _ _).mpr (Finset.subset_singleton_iff.mp hclear)] at hrest
      obtain ⟨u, hu, hrest⟩ := hrest.wakeUp hb script depth
      rw [h.execWith_poll hb hres, if_neg hwakes, hu] at hrun
      obtain ⟨zs, hinv'⟩ := hrest.inv
      have hstate : u.state = t := congrArg World.state (Except.ok.inj hrun)
      exact ⟨zs, hstate ▸ hinv'⟩
  · refine hplain (execWith_eq hb h rfl (fun i _ => Finset.notMem_empty i) hres
      (Or.inl fun u => ?_))
    rw [wakeUp, callback, show script u.state.wakes = [] from hempty _]
    rfl

/-- The invariant holds in every state of every run with re-entering wakers. -/
theorem reentrantRun_inv (hb : b ≤ Inner.maxPermits P)
    {es : List (Action T W × (ℕ → List (Action T W)))}
    (hrun : Run ReentrantStep (Channel.new P T W b) es s) : ∃ xs, Inv b s xs :=
  hrun.invariant (I := fun s => ∃ xs, Inv b s xs) (fun _ _ _ ⟨_, h⟩ hstep =>
    h.reentrantStep hb hstep)
    ⟨[], new_inv hb⟩

/-- A step without re-entering wakers is one whose wakers have nothing to do. -/
theorem Inv.reentrantStep_of_step (hb : b ≤ Inner.maxPermits P) (h : Inv b s xs)
    (hstep : s.Step (c, o) t) : s.ReentrantStep (c, fun _ => []) t :=
  ⟨hstep.1, fun _ => Or.inr fun _ => rfl, 0,
    execWith_eq hb h rfl (fun i _ => Finset.notMem_empty i) hstep.2 (Or.inl fun _ => rfl)⟩

theorem reentrantRun_of_run (hb : b ≤ Inner.maxPermits P) {es : List (Action T W × Answer T)}
    (hrun : Run Step (Channel.new P T W b) es s) :
    Run ReentrantStep (Channel.new P T W b) (es.map fun e => (e.1, fun _ => [])) s := by
  induction hrun with
  | nil => exact .nil
  | snoc hrun hstep ih =>
    obtain ⟨xs, h⟩ := run_inv hb hrun
    rw [List.map_append]
    exact ih.snoc (h.reentrantStep_of_step hb hstep)

/-! ### Which calls are safe -/

/-- **Re-entering wakers**: a call of the semaphore that wakes somebody is never safe; a call of a
bounded channel that wakes somebody is safe exactly when it drops the last `Tx`, or completes a send
while no other send has a slot assigned. -/
theorem reentry_safe_iff :
    (∀ (s : Semaphore.System P W) (c : Semaphore.Action W), s.Wakes c → ¬ s.Safe c) ∧
    ∀ b (es : List (Action T W × (ℕ → List (Action T W)))) (s : Channel P T W),
      Run ReentrantStep (Channel.new P T W b) es s → ∀ c, s.Allowed c → s.Wakes c →
        (s.Safe c ↔ s.Clear c) := by
  refine ⟨fun s c => Semaphore.System.not_safe, fun b es s hrun c hc hwakes => ?_⟩
  rw [new_mask] at hrun
  have hb : b &&& Inner.maxPermits P ≤ Inner.maxPermits P := Nat.and_le_right
  obtain ⟨xs, h⟩ := reentrantRun_inv hb hrun
  obtain ⟨o, t, hres, -⟩ := id hwakes
  have hunsafe : (∀ tx, c ≠ .call (.dropTx tx)) → (∀ i cx, c ≠ .poll i cx) → ¬ s.Clear c →
      (s.Safe c ↔ s.Clear c) := fun hdrop hpoll hclear =>
    iff_of_false (h.not_safe hb hc hdrop hpoll hwakes) hclear
  cases c with
  | call call =>
    cases call with
    | dropTx tx => exact iff_of_true (h.safe_dropTx hc hres) trivial
    | _ => exact hunsafe nofun nofun id
  | send i tx v => exact hunsafe nofun nofun id
  | drop i => exact hunsafe nofun nofun id
  | poll i cx =>
    refine ⟨fun hsafe j hj => Finset.mem_singleton.mpr ?_, h.safe_poll hb hc⟩
    by_contra hji
    exact h.not_safe_poll hb hc hwakes hj hji hsafe

/-- Permits that are added to a semaphore somebody waits for, and a send that completes while the
receiver waits. -/
theorem reentry_safe_iff_send : (∃ (s : Semaphore.System .w64 ℕ), s.Wakes (.addPermits 1) ∧
      ¬ s.Safe (.addPermits 1)) ∧
    ∃ (es : List (Action ℕ ℕ × (ℕ → List (Action ℕ ℕ)))) (s : Channel .w64 ℕ ℕ),
      Run ReentrantStep (Channel.new .w64 ℕ ℕ 1) es s ∧ s.Wakes (.poll 5 1) ∧
        s.Safe (.poll 5 1) := by
  constructor
  · have hcheck : (replay Semaphore.System.call (.new .w64 ℕ 0) [.acquireMany 5 1, .poll 5 7]).map
        (fun r => decide (r.2.Wakes (.addPermits 1))) = some true := by
      decide +kernel
    obtain ⟨⟨es, s⟩, -, hwakes⟩ := Option.map_eq_some_iff.mp hcheck
    have hwakes := of_decide_eq_true hwakes
    exact ⟨s, hwakes, (reentry_safe_iff (P := .w64) (T := ℕ) (W := ℕ)).1 s _ hwakes⟩
  · have hcheck : (replay (attempt Allowed exec) (Channel.new .w64 ℕ ℕ 1) [.call (.recv 3),
        .send 5 0 10]).map (fun r => (decide (r.2.Allowed (.poll 5 1)), r.2.assigned, r.2.wakes,
          r.2.exec (.poll 5 1) >>= fun q => .ok q.2.wakes)) = some (true, ∅, 0, .ok 1) := by
      decide +kernel
    obtain ⟨⟨es, s⟩, hres, hs⟩ := Option.map_eq_some_iff.mp hcheck
    obtain ⟨hc, hs⟩ := Prod.mk.inj hs
    obtain ⟨hassigned, hs⟩ := Prod.mk.inj hs
    obtain ⟨hzero, hexec⟩ := Prod.mk.inj hs
    obtain ⟨⟨o, t⟩, hexec, hone⟩ := bind_eq_ok.mp hexec
    have hrun := reentrantRun_of_run (by decide) (run_of_replay (fun _ _ _ _ => of_attempt) hres)
    have hwakes : s.Wakes (.poll 5 1) := ⟨o, t, hexec, by
      rw [show t.wakes = 1 from Except.ok.inj hone, show s.wakes = 0 from hzero]
      decide⟩
    refine ⟨_, s, hrun, hwakes,
      (reentry_safe_iff.2 1 _ s hrun _ (of_decide_eq_true hc) hwakes).mpr ?_⟩
    show s.assigned ⊆ {5}
    rw [show s.assigned = ∅ from hassigned]
    exact Finset.empty_subset _

/-- A waker that adds a permit is called while a permit is added: it panics. -/
theorem reentry_addPermits : ∃ (es : List (Semaphore.Action ℕ × Semaphore.Output))
    (s : Semaphore.System .w64 ℕ), Run Semaphore.System.Step (.new .w64 ℕ 0) es s ∧
      s.Wakes (.addPermits 1) ∧
      Semaphore.System.execWith (Semaphore.System.wakeUp (fun _ => [.addPermits 1]) 1) (World.of s)
        (.addPermits 1) = .error alreadyBorrowed ∧ ¬ s.Safe (.addPermits 1) := by
  have hcheck : (replay Semaphore.System.call (.new .w64 ℕ 0) [.acquireMany 5 1, .poll 5 7]).map
      (fun r => (decide (r.2.Wakes (.addPermits 1)),
        (Semaphore.System.execWith (Semaphore.System.wakeUp (fun _ => [.addPermits 1]) 1)
          (World.of r.2) (.addPermits 1)).map fun _ => ())) =
        some (true, .error alreadyBorrowed) := by
    decide +kernel
  obtain ⟨⟨es, s⟩, hres, hs⟩ := Option.map_eq_some_iff.mp hcheck
  obtain ⟨hwakes, hfails⟩ := Prod.mk.inj hs
  have hrun := run_of_replay Semaphore.System.step_of_call hres
  have herror := map_eq_error hfails
  exact ⟨es, s, hrun, of_decide_eq_true hwakes, herror,
    fun hsafe => hsafe _ 1 _ herror (Or.inl rfl)⟩

end LocalSync.Mpsc.Bounded.Channel
