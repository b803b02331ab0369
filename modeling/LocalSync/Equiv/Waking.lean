/-
  Who is woken by the calls of a bounded channel, and who has a slot afterwards.

  A call that does not send, and does not drop the last `Tx`, wakes only sends
  that wait for a slot, and never the one it drops (`Inv.exists_waits`).  A poll
  wakes at most the receiver; it takes the slot of its send, if it has one, and
  assigns none (`Inv.assigned_poll`).  Dropping a send without a slot wakes
  nobody (`Inv.drop_unassigned`), and dropping one with a slot wakes whoever has
  waited longest (`Inv.wakes_drop`).
-/
import LocalSync.Equiv.Capacity
import LocalSync.Equiv.Receiver
import LocalSync.Equiv.Reentrant
import LocalSync.Mpsc.Reentrant

namespace LocalSync.Mpsc.Bounded.Channel

open Lib
open LocalSync.Semaphore (Inner Tracked AcquireError Acquire Fair Slots)

variable {P : PointerWidth} {T W : Type} [Waker W]
variable {b : ℕ} {s t : Channel P T W} {xs : List T} {i j : Addr} {c : Action T W} {o : Answer T}

/-! ### Who waits -/

/-- The send at `j` has joined the wait list. -/
def Waits (s : Channel P T W) (j : Addr) : Prop :=
  s.suspended j = true ∧
    (s.handles.chan.semaphore.inner.acquires.map Acquire.queued).get? j = some true

/-- Who waits for a slot has joined the wait list. -/
theorem waits_of_mem {a : Fair W} {n : ℕ} (h : Slots b s.suspended a s.handles.chan.semaphore n)
    (hj : j ∈ a.waiting) : s.Waits j := by
  obtain ⟨r, hr, hqueued, -⟩ := h.models.sound.exists_of_mem hj
  refine ⟨(h.suspended_of_get? hr).1, ?_⟩
  obtain ⟨q, hq, rfl⟩ := h.models.refines.get? hr
  rw [Store.get?_map, hq]
  exact congrArg some hqueued

/-- A semaphore that wakes nobody when it is closed has nobody waiting. -/
theorem waiting_eq_nil_of_close {a : Fair W} {p : Addr → Bool} {x y : Tracked P W} {n : ℕ}
    (h : Slots b p a x n) (hres : x.close = .ok y) (hy : Slots b p a.close y n)
    (hlen : y.inner.woken.length = x.inner.woken.length) : a.waiting = [] := by
  have hwoken := (h.models.woken_length_iff hy.models (Tracked.log_close hres)).mp hlen
  refine List.eq_nil_iff_forall_not_mem.mpr fun j hj => ?_
  obtain ⟨waker, hwaker⟩ := Option.isSome_iff_exists.mp (h.models.sound.awake j hj)
  have hself := h.models.sound.woken_close j
  rw [hwoken, if_pos hj, hwaker] at hself
  cases List.self_eq_append_right.mp hself

/-- While nobody waits for a slot, giving slots back and closing wake nobody. -/
theorem idle_accounts (hb : b ≤ Inner.maxPermits P) (p : Addr → Bool) (len : ℕ) :
    Accounts fun (x : Tracked P W) n =>
      ∃ a, Slots b p a x n ∧ a.waiting = [] ∧ x.inner.woken.length = len where
  addPermits x n k h := by
    obtain ⟨a, h, hnil, rfl⟩ := h
    obtain ⟨y, hres, hy⟩ := h.release hb
    have hrelease := Fair.release_of_nil hnil k
    refine ⟨y, congrArg Inner.Outcome.fault hres, ⟨_, hy, ?_, ?_⟩, ?_⟩
    · rw [hrelease]
      exact hnil
    · exact (h.models.woken_length_iff hy.models (Tracked.log_release hres)).mpr
        (hrelease ▸ rfl)
    · show y.inner.isClosed = x.inner.isClosed
      rw [hy.isClosed, h.isClosed, Fair.closed_release]
  close x n h := by
    obtain ⟨a, h, hnil, rfl⟩ := h
    obtain ⟨y, hres, hy⟩ := h.close
    have hclose : a.close = { a with closed := true } := by
      rw [Fair.close, hnil]
      rfl
    refine ⟨y, congrArg Inner.Outcome.fault hres, ⟨_, hy, ?_, ?_⟩, ?_⟩
    · rw [hclose]
      exact hnil
    · exact (h.models.woken_length_iff hy.models (Tracked.log_close hres)).mpr
        (hclose ▸ rfl)
    · show y.inner.isClosed = true
      rw [hy.isClosed, Fair.closed_close]

/-! ### Who is woken -/

/-- Only a send that succeeds and the drop of the last `Tx` wake the receiver. -/
theorem Inv.woken_eq (hb : b ≤ Inner.maxPermits P) (h : Inv b s xs) (hc : s.Allowed c)
    (hres : s.exec c = .ok (o, t)) (hdrop : ∀ tx, c ≠ .call (.dropTx tx))
    (hpoll : ∀ i cx, c ≠ .poll i cx) : t.handles.chan.woken = s.handles.chan.woken := by
  by_cases hrecv : ∃ cx, c = .call (.recv cx)
  · obtain ⟨cx, rfl⟩ := hrecv
    obtain ⟨⟨_, u⟩, hcall, hres⟩ := bind_eq_ok.mp hres
    obtain ⟨-, rfl⟩ := Prod.mk.inj (Except.ok.inj hres)
    obtain ⟨⟨_, u'⟩, hrecv, hcall⟩ := bind_eq_ok.mp hcall
    obtain ⟨-, rfl⟩ := Prod.mk.inj (Except.ok.inj hcall)
    exact Handles.recv_woken hrecv
  · obtain ⟨o', t', -, hres', -, -, hsends⟩ := exec_spec hb h hc
    obtain ⟨rfl, rfl⟩ := Prod.mk.inj (Except.ok.inj (hres.symm.trans hres'))
    have hvalue : s.sentValue c = none := by
      cases c with
      | poll i cx => exact absurd rfl (hpoll i cx)
      | _ => rfl
    have heffect := step_effect h.handles.flow.count (e := (c, o)) ⟨hc, hres⟩ fun cx hcx => by
      cases c with
      | call c => exact hrecv ⟨cx, congrArg _ (Option.some.inj hcx)⟩
      | _ => cases hcx
    cases heffect with
    | unnoticed _ ht => exact ht.woken
    | rings hsignals _ =>
      rcases hsignals with rfl | ⟨tx, hcall, -⟩
      · obtain ⟨v, hv, -⟩ := hsends
        rw [hvalue] at hv
        cases hv
      · cases c with
        | call c => exact absurd (congrArg _ (Option.some.inj hcall)) (hdrop tx)
        | _ => cases hcall

/-- A call through a handle, other than the drop of a `Tx`, wakes nobody unless a send waits for a
slot. -/
theorem Inv.wakes_call (hb : b ≤ Inner.maxPermits P) (h : Inv b s xs) {a : Fair W}
    (hslots : Slots b s.suspended a s.handles.chan.semaphore xs.length) (hnil : a.waiting = [])
    {call : Call W} (hc : s.Allowed (.call call)) (hres : s.exec (.call call) = .ok (o, t))
    (hdrop : ∀ tx, call ≠ .dropTx tx) : t.wakes = s.wakes := by
  have hwoken := h.woken_eq hb hc hres (fun tx htx => hdrop tx (Action.call.inj htx)) nofun
  have hallowed : s.handles.Allowed call := by
    cases call with
    | dropTx tx => exact hc.1
    | _ => exact hc
  obtain ⟨o', u, ys, hres', hinv, -⟩ := Handles.exec_spec (idle_accounts hb s.suspended
    s.handles.chan.semaphore.inner.woken.length) (show s.handles.Inv _ xs from
    ⟨h.handles.flow, ⟨a, hslots, hnil, rfl⟩, h.handles.queue, h.handles.freed⟩) hallowed
  have hexec : s.exec (.call call) = .ok (o', { s with handles := u }) := by
    rw [exec, hres']
    rfl
  obtain ⟨-, rfl⟩ := Prod.mk.inj (Except.ok.inj (hres.symm.trans hexec))
  obtain ⟨a', -, -, hlen⟩ := hinv.semaphore
  show u.chan.semaphore.inner.woken.length + u.chan.woken.length = _
  rw [hlen, show u.chan.woken = _ from hwoken]
  rfl

/-- Awaiting a slot wakes nobody. -/
theorem Inv.awaitOne_quiet (hb : b ≤ Inner.maxPermits P) (h : Inv b s xs) {first : Bool}
    {cx : W} {r : Poll (Except AcquireError Unit)} {y : Tracked P W} (hi : s.suspended i = !first)
    (hacq : s.handles.chan.semaphore.awaitOne i first cx = .ok (r, y)) :
    y.inner.woken.length = s.handles.chan.semaphore.inner.woken.length := by
  obtain ⟨a, hslots⟩ := h.handles.semaphore
  obtain ⟨y', hres, hmodels⟩ := hslots.awaitOne_models hb hi cx
  obtain ⟨rfl, rfl⟩ := Prod.mk.inj (Except.ok.inj (hres.symm.trans hacq))
  exact (hslots.models.woken_length_iff hmodels (Tracked.log_awaitOne hacq)).mpr
    (hslots.awaitOne_undisturbed hi cx).woken

omit [Waker W] in
/-- A send leaves the semaphore alone. -/
theorem semaphore_send {u u' : Handles (Tracked P W) T W} {v : T} {r : Except SendError Unit}
    (h : u.send v = .ok (r, u')) : u'.chan.semaphore = u.chan.semaphore := by
  obtain ⟨⟨r', d⟩, hsend, h⟩ := bind_eq_ok.mp h
  have hsem : d.semaphore = u.chan.semaphore := by
    unfold Chan.send at hsend
    split_ifs at hsend
    · obtain ⟨-, rfl⟩ := Prod.mk.inj (Except.ok.inj hsend)
      rfl
    · obtain ⟨q, -, hsend⟩ := bind_eq_ok.mp hsend
      obtain ⟨-, rfl⟩ := Prod.mk.inj (Except.ok.inj hsend)
      rfl
  cases r' <;> obtain ⟨-, rfl⟩ := Prod.mk.inj (Except.ok.inj h) <;> exact hsem

/-- The semaphore after the body of a send, and what the receiver notices of it. -/
theorem resume_semaphore {tx : ℕ} {v : T} {first : Bool} {cx : W}
    {r : Poll (Except AcquireError Unit)}
    {y : Tracked P W} (hacq : s.handles.chan.semaphore.awaitOne i first cx = .ok (r, y))
    {r' : Poll (Except SendError Unit)} (hres : s.resume i tx v first cx = .ok (r', t)) :
    t.handles.chan.semaphore = y ∧
      (r ≠ .ready (.ok ()) → t.handles.chan.woken = s.handles.chan.woken) := by
  have hslot : acquireSlot s.handles.chan i first cx =
      .ok (r, { s.handles.chan with semaphore := y }) :=
    bind_eq_ok.mpr ⟨(r, y), congrArg Inner.Outcome.fault hacq, rfl⟩
  rw [resume, hslot, ok_bind] at hres
  rcases r with (e | ⟨⟨⟩⟩) | _
  · obtain ⟨-, rfl⟩ := Prod.mk.inj (Except.ok.inj hres)
    exact ⟨rfl, fun _ => rfl⟩
  · obtain ⟨⟨r'', u⟩, hsend, hres⟩ := bind_eq_ok.mp hres
    obtain ⟨-, rfl⟩ := Prod.mk.inj (Except.ok.inj hres)
    exact ⟨semaphore_send hsend, fun hne => absurd rfl hne⟩
  · obtain ⟨-, rfl⟩ := Prod.mk.inj (Except.ok.inj hres)
    exact ⟨rfl, fun _ => rfl⟩

/-- **A poll**, and the semaphore it leaves. -/
theorem Inv.poll_slots (hb : b ≤ Inner.maxPermits P) (h : Inv b s xs) {a : Fair W}
    (hslots : Slots b s.suspended a s.handles.chan.semaphore xs.length) {cx : W}
    (hc : s.Allowed (.poll i cx)) (hres : s.exec (.poll i cx) = .ok (o, t)) :
    ∃ first ys, s.suspended i = !first ∧ Inv b t ys ∧
      Slots b t.suspended (a.awaitOne i first cx).2 t.handles.chan.semaphore ys.length ∧
      t.handles.chan.semaphore.inner.woken.length =
        s.handles.chan.semaphore.inner.woken.length ∧
      ((a.awaitOne i first cx).1 ≠ .ready (.ok ()) →
        t.handles.chan.woken = s.handles.chan.woken) := by
  obtain ⟨f, hf⟩ : ∃ f, s.sends.get? i = some f := by
    cases hf : s.sends.get? i with
    | none => simp [Allowed, unfinished, hf] at hc
    | some f => exact ⟨f, rfl⟩
  obtain ⟨v, first, hfirst, hpoll, -⟩ := pollSend_eq hf hc cx
  obtain ⟨o', t', ys, hres', hinv, -⟩ := exec_spec hb h hc
  obtain ⟨rfl, rfl⟩ := Prod.mk.inj (Except.ok.inj (hres.symm.trans hres'))
  obtain ⟨⟨r, u⟩, hpoll', hres⟩ := bind_eq_ok.mp hres
  obtain ⟨-, rfl⟩ := Prod.mk.inj (Except.ok.inj hres)
  rw [hpoll] at hpoll'
  obtain ⟨y, hacq, hmodels⟩ := hslots.awaitOne_models hb hfirst cx
  obtain ⟨hsem, hwoken⟩ := resume_semaphore hacq hpoll'
  refine ⟨first, ys, hfirst, hinv, ?_, ?_, hwoken⟩
  · obtain ⟨a', hslots'⟩ := hinv.handles.semaphore
    have hrefines := hslots'.models.refines
    rw [hsem] at hrefines
    rwa [hrefines.unique hmodels.refines] at hslots'
  · rw [hsem]
    exact h.awaitOne_quiet hb hfirst hacq

/-- **The drop of a send**, and the semaphore it leaves. -/
theorem Inv.drop_slots (hb : b ≤ Inner.maxPermits P) (h : Inv b s xs) {a : Fair W}
    (hslots : Slots b s.suspended a s.handles.chan.semaphore xs.length)
    (hc : s.Allowed (.drop i)) (hres : s.exec (.drop i) = .ok (o, t)) :
    Inv b t xs ∧ Slots b t.suspended (if s.suspended i then a.cancel i else a)
        t.handles.chan.semaphore xs.length ∧
      (t.wakes = s.wakes ↔ (if s.suspended i then a.cancel i else a).woken = a.woken) := by
  obtain ⟨t', hdrop, hinv, -⟩ := drop_spec hb h hc
  have hexec : s.exec (.drop i) = .ok (.unit, t') := by
    rw [exec, hdrop]
    rfl
  obtain ⟨-, rfl⟩ := Prod.mk.inj (Except.ok.inj (hres.symm.trans hexec))
  have hwoken := h.woken_eq hb hc hexec (fun _ heq => by cases heq) fun _ _ heq => by cases heq
  obtain ⟨a', hslots'⟩ := hinv.handles.semaphore
  obtain ⟨⟨tx, stage⟩, hget⟩ := Option.isSome_iff_exists.mp hc
  rw [dropSend, hget] at hdrop
  by_cases hi : s.suspended i = true
  · rw [if_pos hi]
    obtain ⟨y, hsem, hy⟩ := hslots.drop hb hi
    have ht : t.handles.chan.semaphore = y := by
      cases stage with
      | suspended v =>
        simp only [hsem, Inner.fault_ok, ok_bind] at hdrop
        obtain rfl := Except.ok.inj hdrop
        rfl
      | unresumed v => simp [suspended, hget] at hi
      | returned => simp [suspended, hget] at hi
    have hrefines := hslots'.models.refines
    rw [ht] at hrefines
    rw [hrefines.unique hy.models.refines] at hslots'
    refine ⟨hinv, hslots', ?_⟩
    rw [← hslots.models.woken_length_iff hy.models (Tracked.log_drop hsem)]
    simp only [wakes, ht, hwoken, Nat.add_right_cancel_iff]
  · rw [if_neg hi]
    have ht : t.handles.chan.semaphore = s.handles.chan.semaphore := by
      cases stage with
      | suspended v => simp [suspended, hget] at hi
      | unresumed v =>
        obtain rfl := Except.ok.inj hdrop
        rfl
      | returned =>
        obtain rfl := Except.ok.inj hdrop
        rfl
    have hrefines := hslots'.models.refines
    rw [ht] at hrefines
    rw [hrefines.unique hslots.models.refines] at hslots'
    refine ⟨hinv, hslots', ?_⟩
    simp only [wakes, ht, hwoken]

/-- **Who is woken through the semaphore** waits for a slot, and is not the future that the call
needs. -/
theorem Inv.exists_waits (hb : b ≤ Inner.maxPermits P) (h : Inv b s xs) (hc : s.Allowed c)
    (hres : s.exec c = .ok (o, t)) (hdrop : ∀ tx, c ≠ .call (.dropTx tx))
    (hpoll : ∀ i cx, c ≠ .poll i cx) (hne : t.wakes ≠ s.wakes) :
    ∃ j, s.Waits j ∧ c.future ≠ some j := by
  obtain ⟨a, hslots⟩ := h.handles.semaphore
  obtain ⟨j, hj, hfuture⟩ : ∃ j ∈ a.waiting, c.future ≠ some j := by
    cases c with
    | call call =>
      obtain ⟨j, hj⟩ := List.exists_mem_of_ne_nil a.waiting fun hnil =>
        hne (h.wakes_call hb hslots hnil hc hres fun tx htx => hdrop tx (htx ▸ rfl))
      exact ⟨j, hj, nofun⟩
    | send i tx v =>
      obtain ⟨-, rfl⟩ := Prod.mk.inj (Except.ok.inj hres)
      exact absurd rfl hne
    | poll i cx => exact absurd rfl (hpoll i cx)
    | drop i =>
      obtain ⟨-, -, hwakes⟩ := h.drop_slots hb hslots hc hres
      by_contra hnone
      refine hne (hwakes.mpr (funext fun j => ?_))
      split_ifs
      · refine hslots.models.sound.woken_cancel ?_
        by_contra hj
        obtain ⟨hmem, hji⟩ := not_or.mp hj
        exact hnone ⟨j, not_not.mp hmem, fun hij => hji (Option.some.inj hij).symm⟩
      · rfl
  exact ⟨j, waits_of_mem hslots hj, hfuture⟩

/-! ### Who has a slot assigned -/

/-- Nobody but `i` loses its slot, and nobody gets one. -/
theorem assigned_of_undisturbed {a a' : Fair W} {n m : ℕ}
    (hslots : Slots b s.suspended a s.handles.chan.semaphore n)
    (hslots' : Slots b t.suspended a' t.handles.chan.semaphore m) (h : a.Undisturbed i a') :
    t.assigned = s.assigned.erase i := by
  ext j
  rw [mem_assigned hslots', Finset.mem_erase, mem_assigned hslots]
  by_cases hj : j = i
  · subst hj
    refine ⟨fun ⟨hdom, hneed⟩ => ?_, fun hmem => absurd rfl hmem.1⟩
    obtain ⟨r, hr⟩ := Store.exists_get?_of_mem hdom
    rw [Fair.need_of_get? hr] at hneed
    exact absurd hneed (h.unserved r hr)
  · have hget := h.others j hj
    have hdom : j ∈ a'.requests.dom ↔ j ∈ a.requests.dom := by
      rw [Store.mem_dom, hget, Store.mem_dom]
    rw [hdom, Fair.need, hget]
    exact ⟨fun hmem => ⟨hj, hmem⟩, And.right⟩

/-- A poll takes the slot of its future, and assigns none. -/
theorem Inv.assigned_poll (hb : b ≤ Inner.maxPermits P) (h : Inv b s xs) {cx : W}
    (hc : s.Allowed (.poll i cx)) (hres : s.exec (.poll i cx) = .ok (o, t)) :
    t.assigned = s.assigned.erase i := by
  obtain ⟨a, hslots⟩ := h.handles.semaphore
  obtain ⟨first, ys, hfirst, -, hslots', -⟩ := h.poll_slots hb hslots hc hres
  exact assigned_of_undisturbed hslots hslots' (hslots.awaitOne_undisturbed hfirst cx)

/-- The drop of a send without a slot wakes nobody. -/
theorem Inv.drop_unassigned (hb : b ≤ Inner.maxPermits P) (h : Inv b s xs)
    (hc : s.Allowed (.drop i)) (hres : s.exec (.drop i) = .ok (o, t)) (hi : i ∉ s.assigned) :
    t.assigned = s.assigned ∧ t.wakes = s.wakes := by
  obtain ⟨a, hslots⟩ := h.handles.semaphore
  obtain ⟨-, hslots', hwakes⟩ := h.drop_slots hb hslots hc hres
  rw [hwakes]
  by_cases hsusp : s.suspended i = true
  · rw [if_pos hsusp] at hslots' ⊢
    obtain ⟨r, hr, -⟩ := hslots.exists_request hsusp
    have hneed : r.need ≠ 0 := fun hneed => hi ((mem_assigned hslots).mpr
      ⟨Store.mem_dom_of_get? hr, (Fair.need_of_get? hr).trans hneed⟩)
    have hcancel := hslots.models.sound.cancel_undisturbed hr
      ((hslots.held_eq hsusp hr).trans (if_neg hneed))
    rw [assigned_of_undisturbed hslots hslots' hcancel, Finset.erase_eq_of_notMem hi]
    exact ⟨rfl, hcancel.woken⟩
  · rw [if_neg hsusp] at hslots' ⊢
    refine ⟨?_, rfl⟩
    ext j
    rw [mem_assigned hslots', mem_assigned hslots]

/-- A send that is created has no slot yet. -/
theorem Inv.assigned_send (h : Inv b s xs) {tx : ℕ} {v : T} (hc : s.Allowed (.send i tx v)) :
    (s.setStage i tx (.unresumed v)).assigned = s.assigned := by
  obtain ⟨a, hslots⟩ := h.handles.semaphore
  have hinv := send_spec h hc.1 hc.2 v
  obtain ⟨a', hslots'⟩ := hinv.handles.semaphore
  obtain rfl := hslots'.models.refines.unique hslots.models.refines
  ext j
  rw [mem_assigned hslots', mem_assigned hslots]

/-- A poll moves no other future. -/
theorem sends_poll {cx : W} (hres : s.exec (.poll i cx) = .ok (o, t)) (hj : j ≠ i) :
    t.sends.get? j = s.sends.get? j := by
  have hbody : ∀ {tx : ℕ} {v : T} {first : Bool} {r : Poll (Except SendError Unit)},
      s.resume i tx v first cx = .ok (r, t) → t.sends.get? j = s.sends.get? j := by
    intro tx v first r hbody
    obtain ⟨⟨r', d⟩, -, hbody⟩ := bind_eq_ok.mp hbody
    rcases r' with (e | u) | _
    · obtain ⟨-, rfl⟩ := Prod.mk.inj (Except.ok.inj hbody)
      exact Store.get?_insert_of_ne _ _ hj
    · obtain ⟨⟨r'', u'⟩, -, hbody⟩ := bind_eq_ok.mp hbody
      obtain ⟨-, rfl⟩ := Prod.mk.inj (Except.ok.inj hbody)
      exact Store.get?_insert_of_ne _ _ hj
    · obtain ⟨-, rfl⟩ := Prod.mk.inj (Except.ok.inj hbody)
      exact Store.get?_insert_of_ne _ _ hj
  obtain ⟨⟨r, u⟩, hpoll, hres⟩ := bind_eq_ok.mp hres
  obtain ⟨-, rfl⟩ := Prod.mk.inj (Except.ok.inj hres)
  unfold pollSend at hpoll
  split at hpoll
  · cases hpoll
  · exact hbody hpoll
  · exact hbody hpoll
  · cases hpoll

/-- **The drop of a send that has a slot** hands the slot on to whoever waits. -/
theorem Inv.wakes_drop (hb : b ≤ Inner.maxPermits P) (h : Inv b s xs) {a : Fair W}
    (hslots : Slots b s.suspended a s.handles.chan.semaphore xs.length) (hj : j ∈ s.assigned)
    (hwait : i ∈ a.waiting) (hc : s.Allowed (.drop j)) (hres : s.exec (.drop j) = .ok (o, t)) :
    t.wakes ≠ s.wakes := by
  obtain ⟨-, -, hwakes⟩ := h.drop_slots hb hslots hc hres
  obtain ⟨hdom, hneed⟩ := (mem_assigned hslots).mp hj
  obtain ⟨r, hr⟩ := Store.exists_get?_of_mem hdom
  obtain ⟨hsusp, -⟩ := hslots.suspended_of_get? hr
  rw [Ne, hwakes, if_pos hsusp]
  intro heq
  -- the oldest request gets the slot
  have hsound := hslots.models.sound.remove j
  have hwaiting : (a.remove j).waiting = a.waiting :=
    List.erase_of_not_mem (hslots.not_mem_waiting hsusp hneed)
  obtain ⟨k, q, hq⟩ := List.exists_cons_of_ne_nil (List.ne_nil_of_mem (hwaiting ▸ hwait))
  have hk : k ∈ (a.remove j).waiting := hq ▸ List.mem_cons_self ..
  obtain ⟨rk, hrk, -⟩ := hsound.exists_of_mem hk
  obtain ⟨waker, hwaker⟩ := Option.isSome_iff_exists.mp (hsound.awake k hk)
  have hle : (a.remove j).need k ≤ 1 := by
    have hrk' := hrk
    rw [Fair.remove, Store.get?_erase] at hrk'
    split_ifs at hrk'
    have hneed := hsound.need_le k rk hrk
    rw [(hslots.suspended_of_get? hrk').2] at hneed
    rw [Fair.need_of_get? hrk]
    exact hneed
  have hhead := hsound.woken_head hq hle
  have hcancel : a.cancel j = (a.remove j).release 1 := by
    rw [Fair.cancel, hr, Option.elim_some, hslots.held_eq hsusp hr,
      if_pos ((Fair.need_of_get? hr).symm.trans hneed)]
  rw [← hcancel, heq, hwaker] at hhead
  cases List.self_eq_append_right.mp hhead

end LocalSync.Mpsc.Bounded.Channel
