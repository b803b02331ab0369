/-
  The calls on a channel, whatever its semaphore.

  `Accounts R` is what the channel relies on: `R x n` says that the semaphore
  `x` accounts for `n` values in the queue, and closing it and giving permits
  back keep this.  `Handles.Inv R s xs` is the invariant of a channel whose
  queue holds the values `xs`: the counts agree with the live handles, the
  channel is closed once a side is gone, what was accepted is what was
  received, dropped or is still in the queue, and the last poll of the receiver
  is registered or has been answered with a wake-up.

  Every allowed call returns and keeps the invariant (`exec_spec`).
-/
import LocalSync.Equiv.Block
import LocalSync.Mpsc.Handles

namespace LocalSync.Mpsc

open Lib

variable {S T W : Type}

/-- **What a channel asks of its semaphore**: `R x n` says that `x` accounts for `n` values. -/
structure Accounts [Semaphore S] (R : S → ℕ → Prop) : Prop where
  addPermits : ∀ x n k, R x (n + k) → ∃ y, Semaphore.addPermits x k = .ok y ∧ R y n ∧
    Semaphore.isClosed y = Semaphore.isClosed x
  close : ∀ x n, R x n → ∃ y, Semaphore.close x = .ok y ∧ R y n ∧ Semaphore.isClosed y = true

namespace Chan

variable {c : Chan S T W} {xs : List T} {v : T}

/-- The last poll of the receiver came with the waker `w`, after `m` wake-ups: either a waker of
its task is registered and nobody was woken since, or one was woken since, once. -/
inductive Notice [Waker W] (c : Chan S T W) (w : W) (m : ℕ) : Prop
  | registered (w' : W) : c.rxWaker = some w' → Waker.task w' = Waker.task w →
      c.woken.length = m → Notice c w m
  | woken (w' : W) : c.rxWaker = none → c.woken.drop m = [w'] →
      Waker.task w' = Waker.task w → Notice c w m

theorem Notice.wakeRx [Waker W] {w : W} {m : ℕ} (h : c.Notice w m) : c.wakeRx.Notice w m := by
  cases h with
  | registered w' hw' htask hlen =>
    refine .woken w' rfl ?_ htask
    have hlog : c.wakeRx.woken = c.woken ++ [w'] := by simp [Chan.wakeRx, hw']
    rw [hlog, ← hlen, List.drop_left]
  | woken w' hnone hdrop htask =>
    refine .woken w' rfl ?_ htask
    have hlog : c.wakeRx.woken = c.woken := by simp [Chan.wakeRx, hnone]
    rw [hlog, hdrop]

/-- A notice depends on the waker slot and the log only. -/
theorem Notice.congr [Waker W] {d : Chan S T W} {w : W} {m : ℕ} (h : c.Notice w m)
    (hwaker : d.rxWaker = c.rxWaker) (hwoken : d.woken = c.woken) : d.Notice w m := by
  cases h with
  | registered w' hw' htask hlen =>
    exact .registered w' (hwaker.trans hw') htask (hwoken ▸ hlen)
  | woken w' hnone hdrop htask => exact .woken w' (hwaker.trans hnone) (hwoken ▸ hdrop) htask

/-- After registration the slot holds a waker of the polling task; nothing else changes. -/
theorem register_eq [Waker W] (c : Chan S T W) (cx : W) :
    ∃ w', c.register cx = { c with rxWaker := some w' } ∧ Waker.task w' = Waker.task cx := by
  unfold register
  cases hw : c.rxWaker with
  | none => exact ⟨cx, rfl, rfl⟩
  | some w =>
    by_cases hww : Waker.willWake w cx = true
    · exact ⟨w, by simp [hww, ← hw], Waker.task_eq w cx hww⟩
    · exact ⟨cx, by simp [hww], rfl⟩

/-- The loop that consumes all elements. -/
theorem drain_spec (fuel : ℕ) (hq : c.queue.Represents xs) (hfuel : xs.length < fuel) :
    ∃ q, drain fuel c = .ok { c with queue := q, dropped := c.dropped ++ xs } ∧
      q.Represents [] := by
  induction xs generalizing c fuel with
  | nil =>
    obtain ⟨fuel, rfl⟩ : ∃ f, fuel = f + 1 := ⟨fuel - 1, by omega⟩
    refine ⟨c.queue, ?_, hq⟩
    rw [drain, hq.isEmpty_eq, List.append_nil]
    rfl
  | cons x xs ih =>
    obtain ⟨fuel, rfl⟩ : ∃ f, fuel = f + 1 := ⟨fuel - 1, by omega⟩
    obtain ⟨q, hpop, hq'⟩ := Queue.popUnchecked_spec hq
    obtain ⟨q', hres, hq''⟩ := ih (c := { c with queue := q, dropped := c.dropped ++ [x] }) fuel hq'
      (by rw [List.length_cons] at hfuel; omega)
    refine ⟨q', ?_, hq''⟩
    rw [drain, hq.isEmpty_eq, hpop]
    refine hres.trans ?_
    simp

/-- The loop changes the queue and nothing else. -/
theorem drain_frame {fuel : ℕ} {d : Chan S T W} (h : drain fuel c = .ok d) :
    ∃ queue dropped, d = { c with queue, dropped } := by
  induction fuel generalizing c with
  | zero => cases h
  | succ fuel ih =>
    rw [drain] at h
    split_ifs at h
    · obtain ⟨⟨v, q⟩, -, h⟩ := bind_eq_ok.mp h
      obtain ⟨q', ds, rfl⟩ := ih (c := { c with queue := q, dropped := c.dropped ++ [v] }) h
      exact ⟨q', ds, rfl⟩
    · obtain rfl := Except.ok.inj h
      exact ⟨_, _, rfl⟩

/-- **`Chan::drop`** drops what is left and frees the memory. -/
theorem drop_spec (hq : c.queue.Represents xs) :
    ∃ q, c.drop = .ok { c with queue := q, dropped := c.dropped ++ xs } ∧
      q.len = 0 ∧ q.blocks = Store.empty := by
  obtain ⟨q, hres, hq'⟩ := drain_spec (c.queue.len + 1) hq (by rw [hq.len_eq]; omega)
  obtain ⟨q', hfree, hlen, hblocks⟩ := Queue.freeBlocks_spec hq'
  refine ⟨q', ?_, hlen.trans hq'.len_eq, hblocks⟩
  simp only [drop, hres, ok_bind, hfree]
  rfl

section Semaphore

variable [Semaphore S]

/-- The drop of the last `Tx`. -/
theorem dropTx_last (hlast : c.txCount = 1) {y : S} (hclose : Semaphore.close c.semaphore = .ok y) :
    c.dropTx = .ok ({ c with txCount := 0, semaphore := y } : Chan S T W).wakeRx := by
  rw [dropTx, hlast, if_pos rfl, hclose]
  rfl

/-- The drop of any other `Tx`. -/
theorem dropTx_other (hother : 1 < c.txCount) :
    c.dropTx = .ok { c with txCount := c.txCount - 1 } := by
  have hassert : (c.txCount != 0) = true := by
    rw [bne_iff_ne]
    omega
  rw [dropTx, hassert, assert_true, ok_bind, if_neg (by omega)]
  rfl

end Semaphore

end Chan

namespace Handles

/-- How far a channel can move from `s` once its senders are gone. -/
structure Evolves (s t : Handles S T W) : Prop where
  received : s.received <+: t.received
  no_tx : s.txs = ∅ → t.txs = ∅ ∧ t.accepted = s.accepted
  no_rx : s.rx = false → t.rx = false

theorem Evolves.refl (s : Handles S T W) : Evolves s s :=
  ⟨List.prefix_rfl, fun h => ⟨h, rfl⟩, id⟩

/-- While there is a `Tx`, senders may come and go. -/
theorem Evolves.of_mem {s t : Handles S T W} {tx : ℕ} (htx : tx ∈ s.txs)
    (hreceived : t.received = s.received) (hrx : t.rx = s.rx) : Evolves s t :=
  ⟨hreceived ▸ List.prefix_rfl, fun hempty => absurd hempty (Finset.ne_empty_of_mem htx),
    fun h => hrx.trans h⟩

theorem Evolves.trans {s t u : Handles S T W} (h : Evolves s t) (h' : Evolves t u) :
    Evolves s u where
  received := h.received.trans h'.received
  no_tx hs := ⟨(h'.no_tx (h.no_tx hs).1).1, (h'.no_tx (h.no_tx hs).1).2.trans (h.no_tx hs).2⟩
  no_rx hs := h'.no_rx (h.no_rx hs)

variable [Semaphore S] [Waker W]

/-- **The invariant of the handles**, for a queue that holds `xs`. -/
structure Flow (s : Handles S T W) (xs : List T) : Prop where
  /-- What was accepted was received or dropped, or is in the queue, in this order. -/
  accepted : s.accepted = s.received ++ s.chan.dropped ++ xs
  /-- Nothing is dropped while somebody could receive it. -/
  dropped : s.rx = true → s.chan.dropped = []
  count : s.chan.txCount = s.txs.card
  no_tx : s.txs = ∅ → s.chan.isClosed = true
  no_rx : s.rx = false → s.chan.isClosed = true ∧ xs = []
  /-- A receiver waits only for a value that can still come. -/
  waker : s.chan.rxWaker.isSome = true → xs = [] ∧ s.txs.Nonempty
  polled : ∀ w m, s.polled = some (w, m) → s.chan.Notice w m

/-- **The invariant of a channel** whose queue holds `xs`. -/
structure Inv (R : S → ℕ → Prop) (s : Handles S T W) (xs : List T) : Prop where
  flow : s.Flow xs
  semaphore : R s.chan.semaphore xs.length
  queue : s.alive → s.chan.queue.Represents xs
  /-- With the last handle the memory of the queue is gone. -/
  freed : ¬ s.alive → s.chan.queue.len = 0 ∧ s.chan.queue.blocks = Store.empty

variable {R : S → ℕ → Prop} {s t : Handles S T W} {xs : List T} {v : T} {tx : ℕ}

theorem Inv.len_eq (h : Inv R s xs) : s.chan.queue.len = xs.length := by
  by_cases ha : s.alive
  · exact (h.queue ha).len_eq
  · have hrx : s.rx = false := by
      by_contra hne
      exact ha (Or.inr (Bool.not_eq_false _ ▸ hne))
    rw [(h.freed ha).1, (h.flow.no_rx hrx).2]
    rfl

theorem new_inv {x : S} (hx : R x 0) : Inv R (Handles.new x : Handles S T W) [] where
  flow :=
    { accepted := rfl
      dropped := fun _ => rfl
      count := rfl
      no_tx := fun h => absurd h (Finset.singleton_ne_empty 0)
      no_rx := fun h => absurd h (by simp [Handles.new])
      waker := fun h => absurd h (by simp [Handles.new, Chan.new, Chan.newTx])
      polled := fun w m h => absurd h (by simp [Handles.new]) }
  semaphore := hx
  queue _ := Queue.new_represents
  freed h := absurd (Or.inr rfl) h

/-- The invariant of the handles depends on the semaphore through its closed flag only. -/
theorem Flow.setSemaphore (h : s.Flow xs) {y : S}
    (hy : Semaphore.isClosed y = Semaphore.isClosed s.chan.semaphore) :
    Flow { s with chan := { s.chan with semaphore := y } } xs where
  accepted := h.accepted
  dropped := h.dropped
  count := h.count
  no_tx hn := hy.trans (h.no_tx hn)
  no_rx hn := ⟨hy.trans (h.no_rx hn).1, (h.no_rx hn).2⟩
  waker := h.waker
  polled w m hp := (h.polled w m hp).congr rfl rfl

/-- The last handle takes the channel along. -/
theorem release_spec (hf : s.Flow xs) (hs : R s.chan.semaphore xs.length)
    (hq : s.chan.queue.Represents xs) :
    ∃ q, s.release = .ok { s with chan := { s.chan with queue := q } } ∧
      Inv R { s with chan := { s.chan with queue := q } } xs := by
  by_cases ha : s.alive
  · refine ⟨s.chan.queue, by rw [release, if_pos ha], ?_⟩
    exact ⟨hf, hs, fun _ => hq, fun hn => absurd ha hn⟩
  · have hrx : s.rx = false := by
      by_contra hne
      exact ha (Or.inr (Bool.not_eq_false _ ▸ hne))
    obtain rfl := (hf.no_rx hrx).2
    obtain ⟨q, hres, hlen, hblocks⟩ := Chan.drop_spec hq
    rw [List.append_nil] at hres
    refine ⟨q, by rw [release, if_neg ha, hres]; rfl, ?_⟩
    exact ⟨⟨hf.accepted, hf.dropped, hf.count, hf.no_tx, hf.no_rx, hf.waker, fun w m hp =>
      (hf.polled w m hp).congr rfl rfl⟩, hs, fun ha' => absurd ha' ha, fun _ => ⟨hlen, hblocks⟩⟩

/-! ### The calls of `Tx` -/

theorem clone_spec (h : Inv R s xs) (htx : tx ∈ s.txs) {new : ℕ} (hnew : new ∉ s.txs) :
    Inv R (s.clone new) xs ∧ Evolves s (s.clone new) := by
  have hflow := h.flow
  refine ⟨⟨⟨hflow.accepted, hflow.dropped, ?_, ?_, hflow.no_rx, ?_, ?_⟩, h.semaphore, ?_, ?_⟩, ?_⟩
  · show s.chan.txCount + 1 = (insert new s.txs).card
    rw [Finset.card_insert_of_notMem hnew, hflow.count]
  · exact fun hempty => absurd hempty (Finset.insert_ne_empty new s.txs)
  · exact fun hw => ⟨(hflow.waker hw).1, Finset.insert_nonempty new s.txs⟩
  · exact fun w m hp => (hflow.polled w m hp).congr rfl rfl
  · exact fun _ => h.queue (Or.inl ⟨tx, htx⟩)
  · exact fun hn => absurd (Or.inl (Finset.insert_nonempty new s.txs)) hn
  · exact .of_mem htx rfl rfl

/-- **Dropping a `Tx`**: the last one closes the channel and wakes the receiver. -/
theorem dropTx_spec (hR : Accounts R) (h : Inv R s xs) (htx : tx ∈ s.txs) :
    ∃ t, s.dropTx tx = .ok t ∧ Inv R t xs ∧ Evolves s t := by
  have hflow := h.flow
  have hqueue := h.queue (Or.inl ⟨tx, htx⟩)
  have hcard := Finset.card_erase_of_mem htx
  have hpos : 0 < s.txs.card := Finset.card_pos.mpr ⟨tx, htx⟩
  by_cases hlast : s.txs.card = 1
  · have hnone : s.txs.erase tx = ∅ := by
      rw [← Finset.card_eq_zero, hcard, hlast]
    obtain ⟨y, hclose, hy, hclosed⟩ := hR.close _ _ h.semaphore
    have hchan := Chan.dropTx_last (hflow.count.trans hlast) hclose
    obtain ⟨c, hc⟩ : ∃ c, c = ({ s.chan with txCount := 0, semaphore := y } : Chan S T W).wakeRx :=
      ⟨_, rfl⟩
    have hf : Flow { s with chan := c, txs := s.txs.erase tx } xs := by
      subst hc
      refine ⟨hflow.accepted, hflow.dropped, ?_, fun _ => hclosed,
        fun hrx => ⟨hclosed, (hflow.no_rx hrx).2⟩, fun hw => absurd hw Bool.false_ne_true,
        fun w m hp => ?_⟩
      · exact (Finset.card_eq_zero.mpr hnone).symm
      · exact (hflow.polled w m hp).congr (d := { s.chan with txCount := 0, semaphore := y })
          rfl rfl |>.wakeRx
    obtain ⟨q, hres, hinv⟩ := release_spec (R := R) hf (hc ▸ hy) (hc ▸ hqueue)
    refine ⟨_, ?_, hinv, .of_mem htx rfl rfl⟩
    rw [dropTx, hchan, ok_bind, ← hc, hres]
  · have hsome : (s.txs.erase tx).Nonempty := by
      rw [← Finset.card_pos, hcard]
      omega
    have hchan := Chan.dropTx_other (c := s.chan) (by rw [hflow.count]; omega)
    have hf : Flow { s with
        chan := { s.chan with txCount := s.chan.txCount - 1 }
        txs := s.txs.erase tx } xs := by
      refine ⟨hflow.accepted, hflow.dropped, ?_, fun hn => absurd hn hsome.ne_empty, hflow.no_rx,
        fun hw => ⟨(hflow.waker hw).1, hsome⟩, fun w m hp => (hflow.polled w m hp).congr rfl rfl⟩
      show s.chan.txCount - 1 = (s.txs.erase tx).card
      rw [hflow.count, hcard]
    obtain ⟨q, hres, hinv⟩ := release_spec hf h.semaphore hqueue
    refine ⟨_, ?_, hinv, .of_mem htx rfl rfl⟩
    rw [dropTx, hchan, ok_bind, hres]

/-- A send on an open channel is accepted, and wakes the receiver. -/
theorem send_open (hf : s.Flow xs) (hq : s.chan.queue.Represents xs)
    (hopen : s.chan.isClosed = false) (v : T) :
    ∃ t, s.send v = .ok (.ok (), t) ∧ t.Flow (xs ++ [v]) ∧ t.chan.queue.Represents (xs ++ [v]) ∧
      t.chan.semaphore = s.chan.semaphore ∧ t.txs = s.txs ∧ t.rx = s.rx ∧
      t.accepted = s.accepted ++ [v] ∧ t.received = s.received := by
  obtain ⟨q, hpush, hq'⟩ := Queue.pushUnchecked_spec hq v
  have hrx : s.rx = true := by
    by_contra hne
    rw [(hf.no_rx (Bool.not_eq_true _ ▸ hne)).1] at hopen
    cases hopen
  have hchan : s.chan.send v = .ok (.ok (), { s.chan with queue := q }.wakeRx) := by
    rw [Chan.send, show Semaphore.isClosed s.chan.semaphore = false from hopen, hpush]
    rfl
  refine ⟨{ s with chan := { s.chan with queue := q }.wakeRx, accepted := s.accepted ++ [v] }, ?_,
    ⟨?_, hf.dropped, hf.count, hf.no_tx, fun hn => ?_, fun hw => ?_, fun w m hp => ?_⟩,
    hq', rfl, rfl, rfl, rfl, rfl⟩
  · rw [send, hchan]
    rfl
  · show s.accepted ++ [v] = s.received ++ s.chan.dropped ++ (xs ++ [v])
    rw [hf.accepted, List.append_assoc _ xs]
  · rw [show s.rx = false from hn] at hrx
    cases hrx
  · exact absurd hw Bool.false_ne_true
  · exact (hf.polled w m hp).congr (d := { s.chan with queue := q }) rfl rfl |>.wakeRx

omit [Waker W] in
/-- A send on a closed channel changes nothing. -/
theorem send_closed (hclosed : s.chan.isClosed = true) (v : T) :
    s.send v = .ok (.error .rxClosed, s) := by
  have hchan : s.chan.send v = .ok (.error .rxClosed, s.chan) := by
    rw [Chan.send, show Semaphore.isClosed s.chan.semaphore = true from hclosed]
    rfl
  rw [send, hchan]
  rfl

/-! ### The calls of `Rx` -/

/-- Taking out the oldest value. -/
theorem pop_spec (hR : Accounts R) (h : Inv R s (v :: xs)) (hrx : s.rx = true) :
    ∃ q y, s.chan.queue.popUnchecked = .ok (v, q) ∧
      Semaphore.addPermits s.chan.semaphore 1 = .ok y ∧
      ∀ polled, (∀ w m, polled = some (w, m) → s.chan.Notice w m) →
        Inv R { s with chan := { s.chan with queue := q, semaphore := y }
                       received := s.received ++ [v], polled } xs := by
  have hf := h.flow
  obtain ⟨q, hpop, hq⟩ := Queue.popUnchecked_spec (h.queue (Or.inr hrx))
  obtain ⟨y, hadd, hy, hclosed⟩ := hR.addPermits _ _ 1 h.semaphore
  refine ⟨q, y, hpop, hadd, fun polled hpolled => ?_⟩
  refine ⟨⟨?_, hf.dropped, hf.count, fun hn => hclosed.trans (hf.no_tx hn), fun hn => ?_,
    fun hw => ?_,
    fun w m hp => (hpolled w m hp).congr rfl rfl⟩, hy, fun _ => hq,
    fun ha => absurd (Or.inr hrx) ha⟩
  · have hdropped := hf.dropped hrx
    show s.accepted = s.received ++ [v] ++ s.chan.dropped ++ xs
    rw [hf.accepted, hdropped]
    simp
  · rw [show s.rx = false from hn] at hrx
    cases hrx
  · exact absurd (hf.waker hw).1 (List.cons_ne_nil v xs)

/-- **Receiving from a queue that is not empty** gives the oldest value. -/
theorem recv_cons (hR : Accounts R) (h : Inv R s (v :: xs)) (hrx : s.rx = true) (cx : W) :
    ∃ t, s.recv cx = .ok (.ready (some v), t) ∧ Inv R t xs ∧ Evolves s t := by
  obtain ⟨q, y, hpop, hadd, hinv⟩ := pop_spec hR h hrx
  refine ⟨_, ?_, hinv none fun w m hp => absurd hp (by simp),
    ⟨List.prefix_append _ _, fun hn => ⟨hn, rfl⟩, id⟩⟩
  have hchan : s.chan.recv cx =
      .ok (.ready (some v), { s.chan with queue := q, semaphore := y }) := by
    rw [Chan.recv, (h.queue (Or.inr hrx)).isEmpty_eq, hpop]
    simp only [List.isEmpty_cons, Bool.not_false, if_true, ok_bind, hadd]
    rfl
  rw [recv, hchan]
  rfl

theorem tryRecv_cons (hR : Accounts R) (h : Inv R s (v :: xs)) (hrx : s.rx = true) :
    ∃ t, s.tryRecv = .ok (.ok v, t) ∧ Inv R t xs ∧ Evolves s t := by
  obtain ⟨q, y, hpop, hadd, hinv⟩ := pop_spec hR h hrx
  refine ⟨_, ?_, hinv s.polled h.flow.polled,
    ⟨List.prefix_append _ _, fun hn => ⟨hn, rfl⟩, id⟩⟩
  have hchan : s.chan.tryRecv = .ok (.ok v, { s.chan with queue := q, semaphore := y }) := by
    rw [Chan.tryRecv, (h.queue (Or.inr hrx)).isEmpty_eq, hpop]
    simp only [List.isEmpty_cons, Bool.not_false, if_true, ok_bind, hadd]
    rfl
  rw [tryRecv, hchan]
  rfl

/-- **Receiving from an empty queue**: the end if all senders are gone, and else the receiver
waits. -/
theorem recv_nil (h : Inv R s []) (hrx : s.rx = true) (cx : W) :
    ∃ t, s.recv cx = .ok (if s.txs = ∅ then .ready none else .pending, t) ∧ Inv R t [] ∧
      Evolves s t := by
  have hf := h.flow
  have hempty : s.chan.queue.isEmpty = true := (h.queue (Or.inr hrx)).isEmpty_eq
  have hcount : s.chan.txCount = 0 ↔ s.txs = ∅ := by
    rw [hf.count, Finset.card_eq_zero]
  by_cases hno : s.txs = ∅
  · refine ⟨{ s with polled := none }, ?_,
      ⟨⟨hf.accepted, hf.dropped, hf.count, hf.no_tx, hf.no_rx, hf.waker,
        fun w m hp => absurd hp (by simp)⟩, h.semaphore, h.queue, h.freed⟩,
      ⟨List.prefix_rfl, fun hn => ⟨hn, rfl⟩, id⟩⟩
    have hchan : s.chan.recv cx = .ok (.ready none, s.chan) := by
      simp only [Chan.recv, hempty, hcount.mpr hno]
      rfl
    rw [recv, hchan, if_pos hno]
    rfl
  · obtain ⟨w', hreg, htask⟩ := s.chan.register_eq cx
    refine ⟨{ s with chan := s.chan.register cx, polled := some (cx, s.chan.woken.length) }, ?_, ?_,
      ⟨List.prefix_rfl, fun hn => ⟨hn, rfl⟩, id⟩⟩
    · have hchan : s.chan.recv cx = .ok (.pending, s.chan.register cx) := by
        simp only [Chan.recv, hempty]
        rw [if_neg (mt hcount.mp hno)]
        rfl
      rw [recv, hchan, if_neg hno, hreg]
      rfl
    · rw [hreg]
      refine ⟨⟨hf.accepted, hf.dropped, hf.count, hf.no_tx, hf.no_rx,
        fun _ => ⟨rfl, Finset.nonempty_iff_ne_empty.mpr hno⟩, fun w m hp => ?_⟩,
        h.semaphore, h.queue, h.freed⟩
      obtain ⟨rfl, rfl⟩ := Prod.mk.inj (Option.some.inj hp)
      exact .registered w' rfl htask rfl

theorem tryRecv_nil (h : Inv R s []) (hrx : s.rx = true) :
    s.tryRecv = .ok (.error (if s.txs = ∅ then .disconnected else .empty), s) := by
  have hempty : s.chan.queue.isEmpty = true := (h.queue (Or.inr hrx)).isEmpty_eq
  have hcount : s.chan.txCount = 0 ↔ s.txs = ∅ := by
    rw [h.flow.count, Finset.card_eq_zero]
  have hchan : s.chan.tryRecv =
      .ok (.error (if s.txs = ∅ then .disconnected else .empty), s.chan) := by
    simp only [Chan.tryRecv, hempty, hcount, Bool.not_true, Bool.false_eq_true, if_false]
    split_ifs <;> rfl
  rw [tryRecv, hchan]
  rfl

theorem close_spec (hR : Accounts R) (h : Inv R s xs) :
    ∃ t, s.close = .ok t ∧ Inv R t xs ∧ Evolves s t := by
  have hf := h.flow
  obtain ⟨y, hclose, hy, hclosed⟩ := hR.close _ _ h.semaphore
  refine ⟨{ s with chan := { s.chan with semaphore := y } }, ?_,
    ⟨⟨hf.accepted, hf.dropped, hf.count, fun _ => hclosed, fun hn => ⟨hclosed, (hf.no_rx hn).2⟩,
      hf.waker, fun w m hp => (hf.polled w m hp).congr rfl rfl⟩, hy, h.queue, h.freed⟩,
    ⟨List.prefix_rfl, fun hn => ⟨hn, rfl⟩, id⟩⟩
  rw [close, Chan.close, hclose]
  rfl

/-- **Dropping `Rx`** closes the channel, and drops all values that are left. -/
theorem dropRx_spec (hR : Accounts R) (h : Inv R s xs) (hrx : s.rx = true) :
    ∃ t, s.dropRx = .ok t ∧ Inv R t [] ∧ Evolves s t := by
  have hf := h.flow
  have hqueue := h.queue (Or.inr hrx)
  obtain ⟨y, hclose, hy, hclosed⟩ := hR.close _ _ h.semaphore
  obtain ⟨q, hdrain, hq⟩ := Chan.drain_spec (c := { s.chan with semaphore := y })
    (s.chan.queue.len + 1) hqueue (by rw [hqueue.len_eq]; omega)
  dsimp only at hdrain
  obtain ⟨z, hadd, hz, hclosed'⟩ := hR.addPermits y 0 xs.length ((Nat.zero_add _).symm ▸ hy)
  have hchan : s.chan.dropRx = .ok { s.chan with
      queue := q, semaphore := z, dropped := s.chan.dropped ++ xs } := by
    rw [hqueue.len_eq] at hdrain
    simp only [Chan.dropRx, Chan.close, hclose, ok_bind, pure_eq_ok, hqueue.len_eq, hdrain, hadd]
  have hflow : Flow { s with
      chan := { s.chan with queue := q, semaphore := z, dropped := s.chan.dropped ++ xs }
      rx := false } [] := by
    refine ⟨?_, fun hn => absurd hn Bool.false_ne_true, hf.count, fun _ => hclosed'.trans hclosed,
      fun _ => ⟨hclosed'.trans hclosed, rfl⟩, fun hw => ⟨rfl, (hf.waker hw).2⟩,
      fun w m hp => (hf.polled w m hp).congr rfl rfl⟩
    show s.accepted = s.received ++ (s.chan.dropped ++ xs) ++ []
    rw [hf.accepted]
    simp
  obtain ⟨q', hres, hinv⟩ := release_spec hflow hz hq
  refine ⟨_, ?_, hinv, ⟨List.prefix_rfl, fun hn => ⟨hn, rfl⟩, fun _ => rfl⟩⟩
  rw [dropRx, hchan, ok_bind, hres]

omit [Semaphore S] [Waker W] in
/-- Releasing the channel changes nothing but the channel. -/
theorem release_frame (h : s.release = .ok t) :
    t.txs = s.txs ∧ t.accepted = s.accepted := by
  unfold release at h
  split_ifs at h
  · obtain rfl := Except.ok.inj h
    exact ⟨rfl, rfl⟩
  · obtain ⟨c, -, h⟩ := bind_eq_ok.mp h
    obtain rfl := Except.ok.inj h
    exact ⟨rfl, rfl⟩

/-- Which senders a call leaves; these calls send nothing. -/
theorem exec_frame {c : Call W} {o : Answer T} (h : s.exec c = .ok (o, t)) (value : Option T) :
    t.txs = c.txs s.txs ∧ s.Sends value t o := by
  cases c with
  | clone tx new =>
    obtain ⟨rfl, rfl⟩ := Prod.mk.inj (Except.ok.inj h)
    exact ⟨rfl, rfl⟩
  | dropTx tx =>
    obtain ⟨u, hu, h⟩ := bind_eq_ok.mp h
    obtain ⟨rfl, rfl⟩ := Prod.mk.inj (Except.ok.inj h)
    obtain ⟨c, -, hrel⟩ := bind_eq_ok.mp hu
    exact ⟨(release_frame hrel).1, (release_frame hrel).2⟩
  | isClosed tx =>
    obtain ⟨rfl, rfl⟩ := Prod.mk.inj (Except.ok.inj h)
    exact ⟨rfl, rfl⟩
  | recv cx =>
    obtain ⟨⟨r, u⟩, hu, h⟩ := bind_eq_ok.mp h
    obtain ⟨rfl, rfl⟩ := Prod.mk.inj (Except.ok.inj h)
    obtain ⟨⟨r', c⟩, -, hu⟩ := bind_eq_ok.mp hu
    rcases r' with (_ | v) | _ <;> obtain ⟨-, rfl⟩ := Prod.mk.inj (Except.ok.inj hu) <;>
      exact ⟨rfl, rfl⟩
  | tryRecv =>
    obtain ⟨⟨r, u⟩, hu, h⟩ := bind_eq_ok.mp h
    obtain ⟨rfl, rfl⟩ := Prod.mk.inj (Except.ok.inj h)
    obtain ⟨⟨r', c⟩, -, hu⟩ := bind_eq_ok.mp hu
    cases r' <;> obtain ⟨-, rfl⟩ := Prod.mk.inj (Except.ok.inj hu) <;> exact ⟨rfl, rfl⟩
  | close =>
    obtain ⟨u, hu, h⟩ := bind_eq_ok.mp h
    obtain ⟨rfl, rfl⟩ := Prod.mk.inj (Except.ok.inj h)
    obtain ⟨c, -, hu⟩ := bind_eq_ok.mp hu
    obtain rfl := Except.ok.inj hu
    exact ⟨rfl, rfl⟩
  | dropRx =>
    obtain ⟨u, hu, h⟩ := bind_eq_ok.mp h
    obtain ⟨rfl, rfl⟩ := Prod.mk.inj (Except.ok.inj h)
    obtain ⟨c, -, hrel⟩ := bind_eq_ok.mp hu
    exact ⟨(release_frame hrel).1, (release_frame hrel).2⟩

/-- **Every allowed call returns** and keeps the invariant. -/
theorem exec_spec (hR : Accounts R) (h : Inv R s xs) {c : Call W} (hc : s.Allowed c) :
    ∃ o t ys, s.exec c = .ok (o, t) ∧ Inv R t ys ∧ Evolves s t := by
  cases c with
  | clone tx new =>
    obtain ⟨hinv, hev⟩ := clone_spec h hc.1 hc.2
    exact ⟨.unit, _, xs, rfl, hinv, hev⟩
  | dropTx tx =>
    obtain ⟨t, hres, hinv, hev⟩ := dropTx_spec hR h hc
    refine ⟨.unit, t, xs, ?_, hinv, hev⟩
    rw [exec, hres]
    rfl
  | isClosed tx => exact ⟨.closed s.chan.isClosed, s, xs, rfl, h, .refl s⟩
  | recv cx =>
    cases xs with
    | nil =>
      obtain ⟨t, hres, hinv, hev⟩ := recv_nil h hc cx
      refine ⟨.received (if s.txs = ∅ then .ready none else .pending), t, [], ?_, hinv, hev⟩
      rw [exec, hres]
      rfl
    | cons v xs =>
      obtain ⟨t, hres, hinv, hev⟩ := recv_cons hR h hc cx
      refine ⟨.received (.ready (some v)), t, xs, ?_, hinv, hev⟩
      rw [exec, hres]
      rfl
  | tryRecv =>
    cases xs with
    | nil =>
      refine ⟨.tried (.error (if s.txs = ∅ then .disconnected else .empty)), s, [], ?_, h, .refl s⟩
      rw [exec, tryRecv_nil h hc]
      rfl
    | cons v xs =>
      obtain ⟨t, hres, hinv, hev⟩ := tryRecv_cons hR h hc
      refine ⟨.tried (.ok v), t, xs, ?_, hinv, hev⟩
      rw [exec, hres]
      rfl
  | close =>
    obtain ⟨t, hres, hinv, hev⟩ := close_spec hR h
    refine ⟨.unit, t, xs, ?_, hinv, hev⟩
    rw [exec, hres]
    rfl
  | dropRx =>
    obtain ⟨t, hres, hinv, hev⟩ := dropRx_spec hR h hc
    refine ⟨.unit, t, [], ?_, hinv, hev⟩
    rw [exec, hres]
    rfl

end Handles

end LocalSync.Mpsc
