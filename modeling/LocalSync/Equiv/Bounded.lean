/-
  The bounded channel: its semaphore accounts for its capacity.

  `Slots` is the relation that `Accounts` asks for: the permits inside the
  semaphore and the values in the queue make up the capacity, and the futures of
  the semaphore are those of the suspended sends.

  `Channel.Inv` adds the handles.  Every allowed call returns and keeps it
  (`exec_spec`), so it holds in every state of every run (`run_inv`).
-/
import LocalSync.Equiv.Chan
import LocalSync.Equiv.Slots
import LocalSync.Mpsc.Bounded

namespace LocalSync.Mpsc.Bounded

open Lib
open LocalSync.Semaphore (Inner Tracked AcquireError Fair Slots suspend resumed resumed_eq_self)

variable {P : PointerWidth} {T W : Type} [Waker W]

/-- **The semaphore of a bounded channel accounts for its queue.** -/
theorem slots_accounts {b : ℕ} (hb : b ≤ Inner.maxPermits P) (p : Addr → Bool) :
    Accounts fun (x : Tracked P W) n => ∃ a, Slots b p a x n where
  addPermits x n k h := by
    obtain ⟨a, h⟩ := h
    obtain ⟨y, hres, hy⟩ := h.release hb
    refine ⟨y, congrArg Inner.Outcome.fault hres, ⟨_, hy⟩, ?_⟩
    show y.inner.isClosed = x.inner.isClosed
    rw [hy.isClosed, h.isClosed, Fair.closed_release]
  close x n h := by
    obtain ⟨a, h⟩ := h
    obtain ⟨y, hres, hy⟩ := h.close
    refine ⟨y, congrArg Inner.Outcome.fault hres, ⟨_, hy⟩, ?_⟩
    show y.inner.isClosed = true
    rw [hy.isClosed, Fair.closed_close]

/-- **Acquiring a slot**: while the future is pending, or when it ends with an error, all slots stay
where they are; when it returns a slot, the channel is open. -/
theorem acquireSlot_spec {b n : ℕ} {p : Addr → Bool} {a : Fair W} {i : Addr}
    {c : Chan (Tracked P W) T W} (h : Slots b p a c.semaphore n)
    (hb : b ≤ Inner.maxPermits P) {first : Bool} (hi : p i = !first) (cx : W) :
    ∃ r y, Channel.acquireSlot c i first cx = .ok (r, { c with semaphore := y }) ∧
      Semaphore.isClosed y = Semaphore.isClosed c.semaphore ∧
      match r with
      | .pending => ∃ a', Slots b (suspend p i) a' y n
      | .ready e => (Semaphore.isClosed y = true ↔ e = .error .closed) ∧
          ∃ a', Slots b (resumed p i) a' y (if Semaphore.isClosed y = true then n else n + 1) := by
  obtain ⟨y, hres, hr⟩ := h.awaitOne hb hi cx
  have hacq : Channel.acquireSlot c i first cx =
      .ok ((a.awaitOne i first cx).1, { c with semaphore := y }) := by
    rw [Channel.acquireSlot, hres]
    rfl
  have hclosed := Slots.closed_awaitOne a i first cx
  refine ⟨_, y, hacq, ?_⟩
  rw [show Semaphore.isClosed c.semaphore = a.closed from h.isClosed]
  cases hp : (a.awaitOne i first cx).1 with
  | pending =>
    rw [hp] at hr
    exact ⟨hr.isClosed.trans hclosed, _, hr⟩
  | ready e =>
    rw [hp] at hr
    have hy : Semaphore.isClosed y = a.closed := hr.2.isClosed.trans hclosed
    simp only [hy]
    exact ⟨trivial, hr.1, _, hr.2⟩

namespace Channel

/-- The constructor masks the buffer, so that no buffer exceeds the maximum. -/
theorem new_mask (P : PointerWidth) (T W : Type) (b : ℕ) :
    Channel.new P T W b = Channel.new P T W (b &&& Inner.maxPermits P) := by
  rw [Channel.new, Channel.new, Tracked.new, Tracked.new, LocalSync.Semaphore.new_mask]

/-- **The invariant of the bounded channel** with the capacity `b`, whose queue holds `xs`. -/
structure Inv (b : ℕ) (s : Channel P T W) (xs : List T) : Prop where
  handles : s.handles.Inv (fun x n => ∃ a, Slots b s.suspended a x n) xs
  /-- A send borrows a `Tx` that is alive. -/
  borrowed : ∀ i f, s.sends.get? i = some f → f.tx ∈ s.handles.txs

variable {b : ℕ} {s t : Channel P T W} {xs : List T} {i : Addr} {tx : ℕ} {v : T}

theorem new_inv (hb : b ≤ Inner.maxPermits P) : Inv b (Channel.new P T W b) [] where
  handles := by
    have hnone : (Channel.new P T W b).suspended = fun _ => false := by
      funext i
      simp [suspended, Channel.new]
    rw [hnone]
    exact Handles.new_inv ⟨Fair.new W b, .new hb⟩
  borrowed i f hf := by simp [Channel.new] at hf

omit [Waker W] in
theorem suspended_setStage (stage : Stage T) (j : Addr) :
    (s.setStage i tx stage).suspended j =
      if j = i then
        (match stage with
        | .suspended _ => true
        | _ => false)
      else s.suspended j := by
  unfold suspended setStage
  rw [Store.get?_insert]
  split_ifs
  · cases stage <;> rfl
  · rfl

omit [Waker W] in
theorem suspended_suspend (s : Channel P T W) (i : Addr) (tx : ℕ) (v : T) :
    (s.setStage i tx (.suspended v)).suspended = suspend s.suspended i := by
  funext j
  rw [suspended_setStage, suspend]
  by_cases hj : j = i <;> simp [hj]

omit [Waker W] in
theorem suspended_return (s : Channel P T W) (i : Addr) (tx : ℕ) :
    (s.setStage i tx .returned).suspended = resumed s.suspended i := by
  funext j
  rw [suspended_setStage, resumed]
  by_cases hj : j = i <;> simp [hj]

omit [Waker W] in
theorem suspended_erase (s : Channel P T W) (i : Addr) :
    ({ s with sends := s.sends.erase i } : Channel P T W).suspended = resumed s.suspended i := by
  funext j
  unfold suspended resumed
  rw [Store.get?_erase]
  by_cases hj : j = i <;> simp [hj]

/-- The `Tx` of a future that changes its stage is alive, as all others are. -/
theorem Inv.borrowed_setStage (h : Inv b s xs) (htx : tx ∈ s.handles.txs) (stage : Stage T) :
    ∀ j f, (s.setStage i tx stage).sends.get? j = some f → f.tx ∈ s.handles.txs := by
  intro j f hf
  rw [setStage, Store.get?_insert] at hf
  split_ifs at hf
  · obtain rfl := Option.some.inj hf
    exact htx
  · exact h.borrowed j f hf

/-- A call through a handle. -/
theorem call_spec (hb : b ≤ Inner.maxPermits P) (h : Inv b s xs) {c : Call W}
    (hc : s.Allowed (.call c)) :
    ∃ o t ys, s.exec (.call c) = .ok (o, t) ∧ Inv b t ys ∧ s.handles.Evolves t.handles ∧
      s.handles.Sends (s.sentValue (.call c)) t.handles o := by
  have hallowed : s.handles.Allowed c := by
    cases c with
    | dropTx tx => exact hc.1
    | _ => exact hc
  obtain ⟨o, t, ys, hres, hinv, hev⟩ := Handles.exec_spec (slots_accounts hb _) h.handles hallowed
  have hexec : s.exec (.call c) = .ok (o, { s with handles := t }) := by
    rw [exec, hres]
    rfl
  obtain ⟨htxs, hsends⟩ := Handles.exec_frame hres none
  refine ⟨o, { s with handles := t }, ys, hexec, ⟨hinv, fun i f hf => ?_⟩, hev, hsends⟩
  have hmem := h.borrowed i f hf
  show f.tx ∈ t.txs
  rw [htxs]
  cases c with
  | clone tx new => exact Finset.mem_insert_of_mem hmem
  | dropTx tx =>
    -- the `Tx` that is dropped is not borrowed
    refine Finset.mem_erase.mpr ⟨fun heq => ?_, hmem⟩
    have hi : i ∈ s.borrows tx := by
      rw [borrows, Finset.mem_filter, hf]
      exact ⟨Store.mem_dom_of_get? hf, beq_iff_eq.mpr heq⟩
    rw [hc.2] at hi
    exact Finset.notMem_empty i hi
  | _ => exact hmem

/-- Creating a send. -/
theorem send_spec (h : Inv b s xs) (htx : tx ∈ s.handles.txs) (hi : s.sends.get? i = none)
    (v : T) : Inv b (s.setStage i tx (.unresumed v)) xs := by
  have hsusp : (s.setStage i tx (.unresumed v)).suspended = s.suspended := by
    funext j
    rw [suspended_setStage]
    split_ifs with hj
    · subst hj
      simp [suspended, hi]
    · rfl
  refine ⟨?_, h.borrowed_setStage htx _⟩
  rw [hsusp]
  exact h.handles

/-- **The body of a send.** -/
theorem resume_spec (hb : b ≤ Inner.maxPermits P) (h : Inv b s xs) (htx : tx ∈ s.handles.txs)
    {first : Bool} (hi : s.suspended i = !first) (v : T) (cx : W) :
    ∃ r t ys, s.resume i tx v first cx = .ok (r, t) ∧ Inv b t ys ∧
      s.handles.Evolves t.handles ∧ s.handles.Sends (some v) t.handles (.sent r) := by
  have hf := h.handles.flow
  obtain ⟨a, hslots⟩ := h.handles.semaphore
  obtain ⟨r, y, hacq, hclosed, hr⟩ := acquireSlot_spec (c := s.handles.chan) hslots hb hi cx
  have hflow := hf.setSemaphore hclosed
  let u : Channel P T W :=
    { s with handles := { s.handles with chan := { s.handles.chan with semaphore := y } } }
  have hborrowed := h.borrowed_setStage (i := i) htx
  cases r with
  | pending =>
    obtain ⟨a', hslots'⟩ := hr
    refine ⟨.pending, u.setStage i tx (.suspended v), xs, by rw [resume, hacq]; rfl,
      ⟨⟨hflow, ⟨a', ?_⟩, ?_, ?_⟩, hborrowed _⟩,
      .of_mem htx rfl rfl, rfl, rfl⟩
    · rw [← suspended_suspend s i tx v] at hslots'
      exact hslots'
    · exact h.handles.queue
    · exact h.handles.freed
  | ready e =>
    obtain ⟨he, a', hslots'⟩ := hr
    rw [← suspended_return s i tx] at hslots'
    by_cases hc : Semaphore.isClosed y = true
    · obtain rfl := he.mp hc
      rw [if_pos hc] at hslots'
      refine ⟨.ready (.error .rxClosed), u.setStage i tx .returned, xs, by rw [resume, hacq]; rfl,
        ⟨⟨hflow, ⟨a', hslots'⟩, ?_, ?_⟩, hborrowed _⟩, .of_mem htx rfl rfl, rfl, rfl⟩
      · exact h.handles.queue
      · exact h.handles.freed
    · have hok : e = .ok () := by
        cases e with
        | ok u => rfl
        | error e =>
          cases e
          exact absurd (he.mpr rfl) hc
      subst hok
      rw [if_neg hc] at hslots'
      obtain ⟨u, hsend, hflow', hqueue', hsem, htxs, hrx, haccepted, hreceived⟩ :=
        Handles.send_open hflow (h.handles.queue (Or.inl ⟨tx, htx⟩)) (Bool.not_eq_true _ ▸ hc) v
      refine ⟨.ready (.ok ()), ({ s with handles := u } : Channel P T W).setStage i tx .returned,
        xs ++ [v], ?_, ⟨⟨hflow', ⟨a', ?_⟩, fun _ => hqueue', ?_⟩, ?_⟩,
        .of_mem htx hreceived hrx, v, rfl, haccepted⟩
      · rw [resume, hacq]
        simp only [ok_bind, hsend]
        rfl
      · show Slots b _ a' u.chan.semaphore (xs ++ [v]).length
        rw [hsem, List.length_append]
        exact hslots'
      · exact fun hn => absurd (Or.inl ⟨tx, htxs ▸ htx⟩) hn
      · intro j f hget
        show f.tx ∈ u.txs
        rw [htxs]
        exact hborrowed .returned j f hget

omit [Waker W] in
/-- Polling resumes a future where it stands. -/
theorem pollSend_eq [Waker W] {f : SendFuture T} (hf : s.sends.get? i = some f)
    (hu : s.unfinished i = true) (cx : W) :
    ∃ v first, s.suspended i = !first ∧ s.pollSend i cx = s.resume i f.tx v first cx ∧
      s.sentValue (.poll i cx) = some v := by
  obtain ⟨tx, stage⟩ := f
  cases stage with
  | unresumed v =>
    refine ⟨v, true, by simp [suspended, hf], ?_, by simp [sentValue, hf, Stage.value]⟩
    rw [pollSend, hf]
  | suspended v =>
    refine ⟨v, false, by simp [suspended, hf], ?_, by simp [sentValue, hf, Stage.value]⟩
    rw [pollSend, hf]
  | returned => simp [unfinished, hf, Stage.value] at hu

/-- **Polling a send.** -/
theorem poll_spec (hb : b ≤ Inner.maxPermits P) (h : Inv b s xs) (hu : s.unfinished i = true)
    (cx : W) :
    ∃ r t ys, s.pollSend i cx = .ok (r, t) ∧ Inv b t ys ∧ s.handles.Evolves t.handles ∧
      s.handles.Sends (s.sentValue (.poll i cx)) t.handles (.sent r) := by
  obtain ⟨f, hf⟩ : ∃ f, s.sends.get? i = some f := by
    cases hf : s.sends.get? i with
    | none => simp [unfinished, hf] at hu
    | some f => exact ⟨f, rfl⟩
  obtain ⟨v, first, hfirst, hres, hvalue⟩ := pollSend_eq hf hu cx
  obtain ⟨r, t, ys, hres', hinv, hev, hsends⟩ := resume_spec hb h (h.borrowed i f hf) hfirst v cx
  rw [hvalue]
  exact ⟨r, t, ys, hres.trans hres', hinv, hev, hsends⟩

/-- **Dropping a send**, wherever it stands. -/
theorem drop_spec (hb : b ≤ Inner.maxPermits P) (h : Inv b s xs)
    (hi : (s.sends.get? i).isSome = true) :
    ∃ t, s.dropSend i = .ok t ∧ Inv b t xs ∧ s.handles.Evolves t.handles ∧
      t.handles.accepted = s.handles.accepted ∧
      t.handles.chan.queue = s.handles.chan.queue := by
  have hborrowed : ∀ j f, (s.sends.erase i).get? j = some f → f.tx ∈ s.handles.txs := by
    intro j f hget
    rw [Store.get?_erase] at hget
    split_ifs at hget
    exact h.borrowed j f hget
  have hsusp := suspended_erase s i
  by_cases hs : s.suspended i = true
  · obtain ⟨a, hslots⟩ := h.handles.semaphore
    obtain ⟨y, hres, hslots'⟩ := hslots.drop hb hs
    have hclosed : Semaphore.isClosed y = Semaphore.isClosed s.handles.chan.semaphore := by
      show y.inner.isClosed = s.handles.chan.semaphore.inner.isClosed
      rw [hslots'.isClosed, hslots.isClosed, Fair.closed_cancel]
    rw [← hsusp] at hslots'
    refine ⟨{ handles := { s.handles with chan := { s.handles.chan with semaphore := y } }
              sends := s.sends.erase i }, ?_,
      ⟨⟨h.handles.flow.setSemaphore hclosed, ⟨_, hslots'⟩, h.handles.queue, h.handles.freed⟩,
        hborrowed⟩, ⟨List.prefix_rfl, fun hn => ⟨hn, rfl⟩, id⟩, rfl, rfl⟩
    obtain ⟨⟨tx, stage⟩, hf⟩ := Option.isSome_iff_exists.mp hi
    cases stage with
    | suspended v =>
      simp only [dropSend, hf, hres]
      rfl
    | unresumed v => simp [suspended, hf] at hs
    | returned => simp [suspended, hf] at hs
  · rw [resumed_eq_self (Bool.eq_false_iff.mpr hs)] at hsusp
    refine ⟨{ s with sends := s.sends.erase i }, ?_, ⟨?_, hborrowed⟩, .refl _, rfl, rfl⟩
    · obtain ⟨⟨tx, stage⟩, hf⟩ := Option.isSome_iff_exists.mp hi
      cases stage with
      | suspended v => simp [suspended, hf] at hs
      | unresumed v => simp only [dropSend, hf]
      | returned => simp only [dropSend, hf]
    · rw [hsusp]
      exact h.handles

/-- **Every allowed call returns** and keeps the invariant; it accepts a value when it says so. -/
theorem exec_spec (hb : b ≤ Inner.maxPermits P) (h : Inv b s xs) {c : Action T W}
    (hc : s.Allowed c) :
    ∃ o t ys, s.exec c = .ok (o, t) ∧ Inv b t ys ∧ s.handles.Evolves t.handles ∧
      s.handles.Sends (s.sentValue c) t.handles o := by
  cases c with
  | call c => exact call_spec hb h hc
  | send i tx v => exact ⟨.unit, _, xs, rfl, send_spec h hc.1 hc.2 v, .refl _, rfl⟩
  | poll i cx =>
    obtain ⟨r, t, ys, hres, hinv, hev, hsends⟩ := poll_spec hb h hc cx
    exact ⟨.sent r, t, ys, by rw [exec, hres]; rfl, hinv, hev, hsends⟩
  | drop i =>
    obtain ⟨t, hres, hinv, hev, haccepted, -⟩ := drop_spec hb h hc
    exact ⟨.unit, t, xs, by rw [exec, hres]; rfl, hinv, hev, haccepted⟩

/-- The invariant holds in every state of every run. -/
theorem run_inv (hb : b ≤ Inner.maxPermits P) {es : List (Action T W × Answer T)}
    (hrun : Run Step (Channel.new P T W b) es s) : ∃ xs, Inv b s xs := by
  refine hrun.invariant (I := fun s => ∃ xs, Inv b s xs) ?_ ⟨[], new_inv hb⟩
  rintro s ⟨c, o⟩ t ⟨xs, h⟩ ⟨hc, hres⟩
  obtain ⟨o', t', ys, hres', hinv, -⟩ := exec_spec hb h hc
  obtain ⟨-, rfl⟩ := Prod.mk.inj (Except.ok.inj (hres.symm.trans hres'))
  exact ⟨ys, hinv⟩

end Channel

end LocalSync.Mpsc.Bounded
