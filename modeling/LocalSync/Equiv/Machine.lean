/-
  The calls on the handles do what the machine does.

  `Tallies Q` says that a gate tells what a semaphore does: `Q x g n` relates the
  semaphore `x` of a channel with `n` values to the gate `g`.  A call on the
  channel then gives the answer of the machine, and leaves the channel as the
  machine is afterwards (`exec_follows`), whatever the semaphore.

  The unbounded channel follows from this at once (`Unbounded.unbounded_follows_machine`).
-/
import LocalSync.Equiv.Chan
import LocalSync.Mpsc.Machine

namespace LocalSync.Mpsc

open Lib

variable {S G T W : Type} [Semaphore S] [Gate G]

/-- **A gate that tells what a semaphore does**, in a channel with `n` values. -/
structure Tallies (Q : S → G → ℕ → Prop) : Prop where
  isClosed : ∀ x g n, Q x g n → Semaphore.isClosed x = Gate.isShut g
  addPermits : ∀ x g n k, Q x g (n + k) →
    ∃ y, Semaphore.addPermits x k = .ok y ∧ Q y (Gate.give g k) n
  close : ∀ x g n, Q x g n → ∃ y, Semaphore.close x = .ok y ∧ Q y (Gate.shut g) n

variable {Q : S → G → ℕ → Prop}

/-- Whatever the gate, the semaphore accounts for the queue. -/
theorem Tallies.accounts (hQ : Tallies Q) : Accounts fun x n => ∃ g, Q x g n where
  addPermits x n k h := by
    obtain ⟨g, h⟩ := h
    obtain ⟨y, hres, hy⟩ := hQ.addPermits x g n k h
    refine ⟨y, hres, ⟨_, hy⟩, ?_⟩
    rw [hQ.isClosed _ _ _ hy, hQ.isClosed _ _ _ h, Gate.isShut_give]
  close x n h := by
    obtain ⟨g, h⟩ := h
    obtain ⟨y, hres, hy⟩ := hQ.close x g n h
    refine ⟨y, hres, ⟨_, hy⟩, ?_⟩
    rw [hQ.isClosed _ _ _ hy, Gate.isShut_shut]

namespace Handles

variable [Waker W]

/-- **The channel is as the machine shows it.** -/
structure Follows (Q : S → G → ℕ → Prop) (s : Handles S T W) (a : Machine G T) : Prop where
  inv : s.Inv (fun x n => Q x a.gate n) a.queue
  txs : s.txs = a.txs
  rx : s.rx = a.rx

variable {s t : Handles S T W} {a : Machine G T} {xs : List T} {v : T} {tx : ℕ}

omit [Gate G] in
theorem new_follows {x : S} {g : G} (hx : Q x g 0) :
    Follows Q (Handles.new x : Handles S T W) (Machine.new T g) where
  inv := new_inv hx
  txs := rfl
  rx := rfl

/-- The invariant with another relation for the semaphore. -/
theorem Inv.setRelation {R R' : S → ℕ → Prop} (h : Inv R s xs)
    (hs : R' s.chan.semaphore xs.length) : Inv R' s xs :=
  ⟨h.flow, hs, h.queue, h.freed⟩

omit [Gate G] in
theorem Follows.accounted (h : Follows Q s a) : Inv (fun x n => ∃ g, Q x g n) s a.queue :=
  h.inv.setRelation ⟨_, h.inv.semaphore⟩

theorem Follows.isClosed (hQ : Tallies Q) (h : Follows Q s a) :
    s.chan.isClosed = Gate.isShut a.gate :=
  hQ.isClosed _ _ _ h.inv.semaphore

omit [Gate G] in
theorem Follows.allowed_iff (h : Follows Q s a) (c : Call W) : s.Allowed c ↔ a.Allowed c := by
  cases c <;> simp only [Allowed, Machine.Allowed, h.txs, h.rx]

omit [Semaphore S] [Waker W] in
/-- Releasing the channel leaves the semaphore and the receiver alone. -/
theorem release_keeps (h : s.release = .ok t) :
    t.chan.semaphore = s.chan.semaphore ∧ t.rx = s.rx := by
  unfold release at h
  split_ifs at h
  · obtain rfl := Except.ok.inj h
    exact ⟨rfl, rfl⟩
  · obtain ⟨c, hdrop, h⟩ := bind_eq_ok.mp h
    obtain rfl := Except.ok.inj h
    obtain ⟨d, hdrain, hdrop⟩ := bind_eq_ok.mp hdrop
    obtain ⟨q, -, hdrop⟩ := bind_eq_ok.mp hdrop
    obtain rfl := Except.ok.inj hdrop
    obtain ⟨q', ds, rfl⟩ := Chan.drain_frame hdrain
    exact ⟨rfl, rfl⟩

theorem dropTx_follows (hQ : Tallies Q) (h : Follows Q s a) (htx : tx ∈ s.txs) :
    ∃ t, s.dropTx tx = .ok t ∧ Follows Q t { a with
      txs := a.txs.erase tx
      gate := if a.txs = {tx} then Gate.shut a.gate else a.gate } := by
  obtain ⟨t, hres, hinv, -⟩ := dropTx_spec hQ.accounts h.accounted htx
  have hcount := h.inv.flow.count
  have hcard : s.txs.card = 1 ↔ a.txs = {tx} := by
    rw [← h.txs]
    constructor
    · intro hone
      obtain ⟨x, hx⟩ := Finset.card_eq_one.mp hone
      rw [hx, Finset.mem_singleton] at htx
      rw [hx, htx]
    · intro hone
      rw [hone, Finset.card_singleton]
  refine ⟨t, hres, ?_⟩
  by_cases hlast : s.txs.card = 1
  · obtain ⟨y, hclose, hy⟩ := hQ.close _ _ _ h.inv.semaphore
    rw [dropTx, Chan.dropTx_last (hcount.trans hlast) hclose, ok_bind] at hres
    obtain ⟨hsem, hrx⟩ := release_keeps hres
    rw [if_pos (hcard.mp hlast)]
    refine ⟨hinv.setRelation ?_, ?_, hrx.trans h.rx⟩
    · rw [hsem]
      exact hy
    · rw [(release_frame hres).1, ← h.txs]
  · have hpos : 0 < s.txs.card := Finset.card_pos.mpr ⟨tx, htx⟩
    rw [dropTx, Chan.dropTx_other (by rw [hcount]; omega), ok_bind] at hres
    obtain ⟨hsem, hrx⟩ := release_keeps hres
    rw [if_neg (mt hcard.mpr hlast)]
    refine ⟨hinv.setRelation ?_, ?_, hrx.trans h.rx⟩
    · rw [hsem]
      exact h.inv.semaphore
    · rw [(release_frame hres).1, ← h.txs]

/-- Taking out the oldest value. -/
theorem pop_follows (hQ : Tallies Q) (h : Follows Q s a) (ha : a.queue = v :: xs)
    (hrx : s.rx = true) :
    ∃ q y, s.chan.queue.popUnchecked = .ok (v, q) ∧
      Semaphore.addPermits s.chan.semaphore 1 = .ok y ∧
      ∀ polled, (∀ w m, polled = some (w, m) → s.chan.Notice w m) →
        Follows Q { s with chan := { s.chan with queue := q, semaphore := y }
                           received := s.received ++ [v], polled } a.pop := by
  have hinv := h.accounted
  have hs := h.inv.semaphore
  rw [ha] at hinv hs
  obtain ⟨q, y, hpop, hadd, hpolled⟩ := pop_spec hQ.accounts hinv hrx
  obtain ⟨z, hadd', hz⟩ := hQ.addPermits _ _ _ 1 hs
  obtain rfl := Except.ok.inj (hadd.symm.trans hadd')
  have htail : a.pop.queue = xs := congrArg List.tail ha
  refine ⟨q, y, hpop, hadd, fun polled hp => ⟨?_, h.txs, h.rx⟩⟩
  rw [htail]
  exact (hpolled polled hp).setRelation hz

theorem dropRx_follows (hQ : Tallies Q) (h : Follows Q s a) (hrx : s.rx = true) :
    ∃ t, s.dropRx = .ok t ∧ Follows Q t { a with
      queue := []
      gate := Gate.give (Gate.shut a.gate) a.queue.length
      rx := false } := by
  obtain ⟨t, hres, hinv, -⟩ := dropRx_spec hQ.accounts h.accounted hrx
  refine ⟨t, hres, ?_⟩
  obtain ⟨c, hchan, hrel⟩ := bind_eq_ok.mp hres
  obtain ⟨hsem, hrx'⟩ := release_keeps hrel
  obtain ⟨c₁, hclose, hchan⟩ := bind_eq_ok.mp hchan
  obtain ⟨y, hy, hclose⟩ := bind_eq_ok.mp hclose
  obtain rfl := Except.ok.inj hclose
  obtain ⟨c₂, hdrain, hchan⟩ := bind_eq_ok.mp hchan
  obtain ⟨z, hz, hchan⟩ := bind_eq_ok.mp hchan
  obtain rfl := Except.ok.inj hchan
  obtain ⟨q, ds, rfl⟩ := Chan.drain_frame hdrain
  -- the semaphore is closed first, and then gets the slots of the values
  obtain ⟨y', hy', hQy⟩ := hQ.close _ _ _ h.inv.semaphore
  obtain rfl := Except.ok.inj (hy.symm.trans hy')
  rw [show s.chan.queue.len = a.queue.length from h.inv.len_eq] at hz
  obtain ⟨z', hz', hQz⟩ := hQ.addPermits y _ 0 a.queue.length (by rwa [Nat.zero_add])
  obtain rfl := Except.ok.inj (hz.symm.trans hz')
  refine ⟨hinv.setRelation ?_, ?_, hrx'⟩
  · rw [hsem]
    exact hQz
  · rw [(release_frame hrel).1]
    exact h.txs

theorem recv_follows (hQ : Tallies Q) (h : Follows Q s a) (hrx : s.rx = true) (cx : W) :
    ∃ t, s.exec (.recv cx) = .ok ((a.call (.recv cx)).1, t) ∧
      Follows Q t (a.call (.recv cx)).2 := by
  cases ha : a.queue with
  | nil =>
    have hinv := h.inv
    rw [ha] at hinv
    obtain ⟨t, hres, ht, -⟩ := recv_nil hinv hrx cx
    rw [h.txs] at hres
    have hcall : a.call (.recv cx) =
        (.received (if a.txs = ∅ then .ready none else .pending), a) := by
      rw [Machine.call, ha]
    have hexec : s.exec (.recv cx) =
        .ok (.received (if a.txs = ∅ then .ready none else .pending), t) := by
      rw [exec, hres]
      rfl
    rw [hcall]
    refine ⟨t, hexec, ha ▸ ht, ?_, ?_⟩
    · exact (exec_frame hexec none).1.trans h.txs
    · obtain ⟨⟨r, c⟩, -, hres⟩ := bind_eq_ok.mp hres
      rcases r with (_ | v) | _ <;> obtain ⟨-, rfl⟩ := Prod.mk.inj (Except.ok.inj hres) <;>
        exact h.rx
  | cons v xs =>
    obtain ⟨q, y, hpop, hadd, hfollows⟩ := pop_follows hQ h ha hrx
    have hcall : a.call (.recv cx) = (.received (.ready (some v)), a.pop) := by
      rw [Machine.call, ha]
    have hq := h.inv.queue (Or.inr hrx)
    have hchan : s.chan.recv cx =
        .ok (.ready (some v), { s.chan with queue := q, semaphore := y }) := by
      rw [Chan.recv, hq.isEmpty_eq, ha, hpop]
      simp only [List.isEmpty_cons, Bool.not_false, if_true, ok_bind, hadd]
      rfl
    rw [hcall]
    refine ⟨_, ?_, hfollows none fun w m hp => absurd hp (by simp)⟩
    rw [exec, recv, hchan]
    rfl

theorem tryRecv_follows (hQ : Tallies Q) (h : Follows Q s a) (hrx : s.rx = true) :
    ∃ t, s.exec .tryRecv = .ok ((a.call (.tryRecv : Call W)).1, t) ∧
      Follows Q t (a.call (.tryRecv : Call W)).2 := by
  cases ha : a.queue with
  | nil =>
    have hinv := h.inv
    rw [ha] at hinv
    have hcall : a.call (.tryRecv : Call W) =
        (.tried (.error (if a.txs = ∅ then .disconnected else .empty)), a) := by
      rw [Machine.call, ha]
    rw [hcall]
    refine ⟨s, ?_, h⟩
    rw [exec, tryRecv_nil hinv hrx, h.txs]
    rfl
  | cons v xs =>
    obtain ⟨q, y, hpop, hadd, hfollows⟩ := pop_follows hQ h ha hrx
    have hcall : a.call (.tryRecv : Call W) = (.tried (.ok v), a.pop) := by
      rw [Machine.call, ha]
    have hq := h.inv.queue (Or.inr hrx)
    have hchan : s.chan.tryRecv = .ok (.ok v, { s.chan with queue := q, semaphore := y }) := by
      rw [Chan.tryRecv, hq.isEmpty_eq, ha, hpop]
      simp only [List.isEmpty_cons, Bool.not_false, if_true, ok_bind, hadd]
      rfl
    rw [hcall]
    refine ⟨_, ?_, hfollows s.polled h.inv.flow.polled⟩
    rw [exec, tryRecv, hchan]
    rfl

/-- **A call on a channel** gives the answer of the machine, and does what the machine does. -/
theorem exec_follows (hQ : Tallies Q) (h : Follows Q s a) {c : Call W} (hc : s.Allowed c) :
    ∃ t, s.exec c = .ok ((a.call c).1, t) ∧ Follows Q t (a.call c).2 := by
  cases c with
  | clone tx new =>
    obtain ⟨hinv, -⟩ := clone_spec h.inv hc.1 hc.2
    exact ⟨_, rfl, hinv, congrArg (insert new) h.txs, h.rx⟩
  | dropTx tx =>
    obtain ⟨t, hres, ht⟩ := dropTx_follows hQ h hc
    exact ⟨t, by rw [exec, hres]; rfl, ht⟩
  | isClosed tx =>
    refine ⟨s, ?_, h⟩
    rw [exec, h.isClosed hQ]
    rfl
  | recv cx => exact recv_follows hQ h hc cx
  | tryRecv => exact tryRecv_follows hQ h hc
  | close =>
    obtain ⟨t, hres, hinv, -⟩ := close_spec hQ.accounts h.accounted
    obtain ⟨y, hclose, hy⟩ := hQ.close _ _ _ h.inv.semaphore
    refine ⟨t, by rw [exec, hres]; rfl, ?_⟩
    rw [close, Chan.close, hclose] at hres
    obtain rfl := Except.ok.inj hres
    exact ⟨hinv.setRelation hy, h.txs, h.rx⟩
  | dropRx =>
    obtain ⟨t, hres, ht⟩ := dropRx_follows hQ h hc
    exact ⟨t, by rw [exec, hres]; rfl, ht⟩

/-- **What a machine shows** of a channel. -/
structure Shows (s : Handles S T W) (a : Machine G T) : Prop where
  /-- While anybody holds the channel, its blocks hold the values of the machine. -/
  queue : s.alive → s.chan.queue.Represents a.queue
  len : s.chan.queue.len = a.queue.length
  isClosed : s.chan.isClosed = Gate.isShut a.gate
  txs : s.txs = a.txs
  rx : s.rx = a.rx
  /-- What was accepted was received or dropped, or is a value of the machine. -/
  accepted : s.accepted = s.received ++ s.chan.dropped ++ a.queue
  /-- When nobody holds the channel any more, its blocks are freed. -/
  freed : ¬ s.alive → s.chan.queue.blocks = Store.empty

theorem Follows.shows (hQ : Tallies Q) (h : Follows Q s a) : Shows s a where
  queue := h.inv.queue
  len := h.inv.len_eq
  isClosed := h.isClosed hQ
  txs := h.txs
  rx := h.rx
  accepted := h.inv.flow.accepted
  freed hn := (h.inv.freed hn).2

end Handles

/-! ### The unbounded channel -/

namespace Unbounded

/-- The flag of the channel is the gate. -/
def SameFlag (x : Unlimited) (g : Bool) (_ : ℕ) : Prop := x.closed = g

theorem sameFlag_tallies : Tallies SameFlag where
  isClosed _ _ _ h := h
  addPermits x _ _ _ h := ⟨x, rfl, h⟩
  close x _ _ _ := ⟨{ x with closed := true }, rfl, rfl⟩

variable [Waker W] {s : Channel T W} {a : Machine Bool T}

theorem exec_follows (h : Handles.Follows SameFlag s a) (c : Action T W) (hc : Allowed s c) :
    ∃ t, exec s c = .ok ((Machine.exec a c).1, t) ∧
      Handles.Follows SameFlag t (Machine.exec a c).2 := by
  cases c with
  | call c => exact Handles.exec_follows sameFlag_tallies h hc
  | send tx v =>
    have hclosed : s.chan.isClosed = a.gate := h.isClosed sameFlag_tallies
    rw [Machine.exec]
    by_cases hshut : a.gate = true
    · rw [if_pos hshut]
      refine ⟨s, ?_, h⟩
      rw [exec, Handles.send_closed (hclosed.trans hshut)]
      rfl
    · rw [if_neg hshut]
      have hq := h.inv.queue (Or.inl ⟨tx, hc⟩)
      obtain ⟨t, hres, hflow, hq', hsem, htxs, hrx, -⟩ :=
        Handles.send_open h.inv.flow hq (hclosed.trans (Bool.eq_false_iff.mpr hshut)) v
      refine ⟨t, by rw [exec, hres]; rfl, ⟨hflow, ?_, fun _ => hq', fun hn => ?_⟩,
        htxs.trans h.txs, hrx.trans h.rx⟩
      · rw [hsem]
        exact h.inv.semaphore
      · exact absurd (Or.inl ⟨tx, htxs ▸ hc⟩) hn

/-- **The unbounded channel is its machine**: both have the same runs, with the same answers. -/
theorem unbounded_follows_machine (T W : Type) [Waker W] :
    SameRuns Step Machine.Step Handles.Shows (new T W) (Mpsc.Machine.new T false) := by
  refine SameRuns.of_exec (I := Handles.Follows SameFlag) (fun s a c h => ?_)
    (fun s a c h hc => exec_follows h c hc) (fun s a h => h.shows sameFlag_tallies)
    (Handles.new_follows rfl)
  cases c with
  | call c => exact h.allowed_iff c
  | send tx v => exact iff_of_eq (congrArg (tx ∈ ·) h.txs)

end Unbounded

end LocalSync.Mpsc
