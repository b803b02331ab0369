/-
  Both channels deliver every accepted value exactly once, in order.

  `Handles.Delivers` says it for one state: the receiver gets the oldest value
  that is left, and what is never received is dropped.  `Delivery` adds what
  holds from that state on: the end, once reported, is final, and only a send
  that returns `Ok` adds a value.  The argument is the same for both channels;
  it uses the invariant of the handles and one theorem about their steps.
-/
import LocalSync.Equiv.Bounded
import LocalSync.Mpsc.Unbounded

namespace LocalSync.Mpsc

open Lib
open LocalSync.Semaphore (Inner)

variable {S T W : Type} [Semaphore S] [Waker W]

namespace Handles

/-- A receive reports that all values have been received and no more will come. -/
def ReportsEnd (s : Handles S T W) : Prop :=
  (∃ cx t, s.recv cx = .ok (.ready none, t)) ∨ ∃ t, s.tryRecv = .ok (.error .disconnected, t)

/-- Every receive reports it. -/
def Ended (s : Handles S T W) : Prop :=
  (∀ cx, ∃ t, s.recv cx = .ok (.ready none, t)) ∧ ∃ t, s.tryRecv = .ok (.error .disconnected, t)

/-- **Delivery, in one state.** -/
structure Delivers (s : Handles S T W) : Prop where
  /-- The values come out in the order in which they were accepted, each at most once. -/
  in_order : s.received <+: s.accepted
  /-- A poll of the receiver returns the oldest value that was not received, if there is one. -/
  recv : s.rx = true → ∀ cx v, (∃ t, s.recv cx = .ok (.ready (some v), t)) ↔
    s.received ++ [v] <+: s.accepted
  /-- So does `try_recv`. -/
  tryRecv : s.rx = true → ∀ v, (∃ t, s.tryRecv = .ok (.ok v, t)) ↔
    s.received ++ [v] <+: s.accepted
  /-- When the end is reported, the senders are gone and everything has been received. -/
  ended : s.rx = true → s.ReportsEnd → s.txs = ∅ ∧ s.received = s.accepted
  /-- While the receiver is there, no value is dropped. -/
  kept : s.rx = true → s.chan.dropped = []
  /-- When it is gone, every accepted value that was not received has been dropped, once, and the
  queue is empty. -/
  dropped : s.rx = false → s.accepted = s.received ++ s.chan.dropped ∧
    s.chan.queue.isEmpty = true

variable {R : S → ℕ → Prop} {s t : Handles S T W} {xs : List T} {v : T}

/-- What is left to receive is what the queue holds. -/
theorem Inv.accepted_eq (h : Inv R s xs) (hrx : s.rx = true) : s.accepted = s.received ++ xs := by
  rw [h.flow.accepted, h.flow.dropped hrx, List.append_nil]

/-- The oldest value that is left is the head of the queue. -/
theorem Inv.next_iff (h : Inv R s xs) (hrx : s.rx = true) (v : T) :
    s.received ++ [v] <+: s.accepted ↔ xs.head? = some v := by
  rw [h.accepted_eq hrx, List.prefix_append_right_inj]
  cases xs with
  | nil => simp
  | cons x xs => simp [List.cons_prefix_cons, eq_comm]

theorem Inv.recv_iff (hR : Accounts R) (h : Inv R s xs) (hrx : s.rx = true) (cx : W) (v : T) :
    (∃ t, s.recv cx = .ok (.ready (some v), t)) ↔ xs.head? = some v := by
  cases xs with
  | nil =>
    obtain ⟨t, hres, -⟩ := recv_nil h hrx cx
    rw [hres]
    split_ifs <;> simp
  | cons x xs =>
    obtain ⟨t, hres, -⟩ := recv_cons hR h hrx cx
    rw [hres]
    simp

theorem Inv.tryRecv_iff (hR : Accounts R) (h : Inv R s xs) (hrx : s.rx = true) (v : T) :
    (∃ t, s.tryRecv = .ok (.ok v, t)) ↔ xs.head? = some v := by
  cases xs with
  | nil =>
    rw [tryRecv_nil h hrx]
    simp
  | cons x xs =>
    obtain ⟨t, hres, -⟩ := tryRecv_cons hR h hrx
    rw [hres]
    simp

/-- The end is reported when the queue is empty and the senders are gone, -/
theorem Inv.of_reportsEnd (hR : Accounts R) (h : Inv R s xs) (hrx : s.rx = true)
    (he : s.ReportsEnd) : xs = [] ∧ s.txs = ∅ := by
  cases xs with
  | nil =>
    refine ⟨rfl, ?_⟩
    by_contra hn
    rcases he with ⟨cx, t, he⟩ | ⟨t, he⟩
    · obtain ⟨t', hres, -⟩ := recv_nil h hrx cx
      rw [hres, if_neg hn] at he
      cases he
    · rw [tryRecv_nil h hrx, if_neg hn] at he
      cases he
  | cons x xs =>
    rcases he with ⟨cx, t, he⟩ | ⟨t, he⟩
    · obtain ⟨t', hres, -⟩ := recv_cons hR h hrx cx
      rw [hres] at he
      cases he
    · obtain ⟨t', hres, -⟩ := tryRecv_cons hR h hrx
      rw [hres] at he
      cases he

/-- and then by every receive. -/
theorem Inv.ended (h : Inv R s []) (hrx : s.rx = true) (htxs : s.txs = ∅) : s.Ended := by
  refine ⟨fun cx => ?_, s, ?_⟩
  · obtain ⟨t, hres, -⟩ := recv_nil h hrx cx
    rw [if_pos htxs] at hres
    exact ⟨t, hres⟩
  · rw [tryRecv_nil h hrx, if_pos htxs]

theorem Inv.delivers (hR : Accounts R) (h : Inv R s xs) : s.Delivers := by
  constructor
  · rw [h.flow.accepted, List.append_assoc]
    exact List.prefix_append _ _
  · intro hrx cx v
    rw [h.recv_iff hR hrx, h.next_iff hrx]
  · intro hrx v
    rw [h.tryRecv_iff hR hrx, h.next_iff hrx]
  · intro hrx he
    obtain ⟨rfl, htxs⟩ := h.of_reportsEnd hR hrx he
    rw [h.accepted_eq hrx, List.append_nil]
    exact ⟨htxs, rfl⟩
  · exact h.flow.dropped
  · intro hrx
    obtain rfl := (h.flow.no_rx hrx).2
    refine ⟨by rw [h.flow.accepted, List.append_nil], ?_⟩
    rw [Queue.isEmpty, h.len_eq]
    rfl

/-- **The end is final**: later on, as long as the receiver is there, every receive reports it. -/
theorem Evolves.ended (hR : Accounts R) (h : Inv R s xs) (hrx : s.rx = true) (he : s.ReportsEnd)
    {Q : S → ℕ → Prop} {ys : List T} (h' : Inv Q t ys) (hrx' : t.rx = true) (hev : s.Evolves t) :
    t.Ended := by
  obtain ⟨rfl, htxs⟩ := h.of_reportsEnd hR hrx he
  obtain ⟨htxs', haccepted⟩ := hev.no_tx htxs
  have hlen := congrArg List.length (h'.accepted_eq hrx')
  rw [haccepted, h.accepted_eq hrx, List.append_nil, List.length_append] at hlen
  have hle := hev.received.length_le
  obtain rfl : ys = [] := List.eq_nil_of_length_eq_zero (by omega)
  exact h'.ended hrx' htxs'

end Handles

/-- **Delivery, from a state on**, in a system of calls `allowed` and `exec` on a channel; `value`
is the value that a call sends. -/
structure Delivery {σ α : Type} (allowed : σ → α → Prop)
    (exec : σ → α → Except Fault (Answer T × σ)) (handles : σ → Handles S T W)
    (value : σ → α → Option T) (s : σ) : Prop where
  delivers : (handles s).Delivers
  /-- No call panics, or reads freed memory or a slot without a value. -/
  no_fault : ∀ a, allowed s a → ∃ o t, exec s a = .ok (o, t)
  /-- A value is accepted only by a send that returns `Ok`; a send that returns anything else leaves
  the queue alone. -/
  sends : ∀ a o t, allowed s a → exec s a = .ok (o, t) →
    (handles s).Sends (value s a) (handles t) o
  /-- Once the end is reported, every later receive reports it. -/
  final : (handles s).rx = true → (handles s).ReportsEnd →
    ∀ es t, Run (fun s (e : α × Answer T) t => allowed s e.1 ∧ exec s e.1 = .ok (e.2, t)) s es t →
      (handles t).rx = true → (handles t).Ended

section Delivery

variable {σ α : Type} {allowed : σ → α → Prop} {exec : σ → α → Except Fault (Answer T × σ)}
  {handles : σ → Handles S T W} {value : σ → α → Option T} {I : σ → List T → Prop}

/-- Delivery follows from an invariant that every call keeps. -/
theorem Delivery.of_inv
    (hI : ∀ s xs, I s xs → ∃ R, Accounts R ∧ (handles s).Inv R xs)
    (hstep : ∀ s xs a, I s xs → allowed s a → ∃ o t ys, exec s a = .ok (o, t) ∧ I t ys ∧
      (handles s).Evolves (handles t) ∧ (handles s).Sends (value s a) (handles t) o)
    {s : σ} {xs : List T} (h : I s xs) : Delivery allowed exec handles value s := by
  have hnext : ∀ s xs a o t, I s xs → allowed s a → exec s a = .ok (o, t) →
      ∃ ys, I t ys ∧ (handles s).Evolves (handles t) ∧
        (handles s).Sends (value s a) (handles t) o := by
    intro s xs a o t h ha hres
    obtain ⟨o', t', ys, hres', h', hev, hsends⟩ := hstep s xs a h ha
    obtain ⟨rfl, rfl⟩ := Prod.mk.inj (Except.ok.inj (hres.symm.trans hres'))
    exact ⟨ys, h', hev, hsends⟩
  obtain ⟨R, hR, hinv⟩ := hI s xs h
  constructor
  · exact hinv.delivers hR
  · intro a ha
    obtain ⟨o, t, -, hres, -⟩ := hstep s xs a h ha
    exact ⟨o, t, hres⟩
  · intro a o t ha hres
    obtain ⟨-, -, -, hsends⟩ := hnext s xs a o t h ha hres
    exact hsends
  · intro hrx he es t hrun hrx'
    obtain ⟨⟨ys, h'⟩, hev⟩ := hrun.invariant
      (I := fun t => (∃ ys, I t ys) ∧ (handles s).Evolves (handles t))
      (fun u e v hu hv => by
        obtain ⟨⟨ys, hu⟩, hev⟩ := hu
        obtain ⟨zs, hv', hev', -⟩ := hnext u ys e.1 e.2 v hu hv.1 hv.2
        exact ⟨⟨zs, hv'⟩, hev.trans hev'⟩)
      ⟨⟨xs, h⟩, .refl _⟩
    obtain ⟨Q, -, hinv'⟩ := hI t ys h'
    exact hev.ended hR hinv hrx he hinv' hrx'

end Delivery

/-! ### The two channels -/

/-- `Unlimited` accounts for any number of values. -/
theorem Unlimited.accounts : Accounts fun (_ : Unlimited) _ => True where
  addPermits x _ _ _ := ⟨x, rfl, trivial, rfl⟩
  close x _ _ := ⟨{ x with closed := true }, rfl, trivial, rfl⟩

namespace Unbounded

/-- **Every allowed call returns** and keeps the invariant. -/
theorem exec_spec {s : Channel T W} {xs : List T} (h : Handles.Inv (fun _ _ => True) s xs)
    {c : Action T W} (hc : Allowed s c) :
    ∃ o t ys, exec s c = .ok (o, t) ∧ Handles.Inv (fun _ _ => True) t ys ∧ s.Evolves t ∧
      s.Sends (sentValue s c) t o := by
  cases c with
  | call c =>
    obtain ⟨o, t, ys, hres, hinv, hev⟩ := Handles.exec_spec Unlimited.accounts h hc
    exact ⟨o, t, ys, hres, hinv, hev, (Handles.exec_frame hres _).2⟩
  | send tx v =>
    by_cases hclosed : s.chan.isClosed = true
    · refine ⟨.sent (.ready (.error .rxClosed)), s, xs, ?_, h, .refl s, rfl, rfl⟩
      rw [exec, Handles.send_closed hclosed]
      rfl
    · have hqueue := h.queue (Or.inl ⟨tx, hc⟩)
      obtain ⟨t, hres, hflow, hqueue', -, htxs, hrx, haccepted, hreceived⟩ :=
        Handles.send_open h.flow hqueue (Bool.eq_false_iff.mpr hclosed) v
      refine ⟨.sent (.ready (.ok ())), t, xs ++ [v], ?_, ⟨hflow, trivial, fun _ => hqueue', ?_⟩,
        .of_mem hc hreceived hrx, v, rfl, haccepted⟩
      · rw [exec, hres]
        rfl
      · exact fun hn => absurd (Or.inl ⟨tx, htxs ▸ hc⟩) hn

/-- The invariant holds in every state of every run. -/
theorem run_inv {es : List (Action T W × Answer T)} {s : Channel T W}
    (hrun : Run Step (new T W) es s) : ∃ xs, Handles.Inv (fun _ _ => True) s xs := by
  refine hrun.invariant (I := fun s => ∃ xs, Handles.Inv (fun _ _ => True) s xs) ?_
    ⟨[], Handles.new_inv trivial⟩
  rintro s ⟨c, o⟩ t ⟨xs, h⟩ ⟨hc, hres⟩
  obtain ⟨o', t', ys, hres', hinv, -⟩ := exec_spec h hc
  obtain ⟨-, rfl⟩ := Prod.mk.inj (Except.ok.inj (hres.symm.trans hres'))
  exact ⟨ys, hinv⟩

end Unbounded

/-- **Every accepted value is delivered exactly once, in order**, on both channels, in every state
of every run. -/
theorem delivery {P : PointerWidth} {b : ℕ} (hb : b ≤ Inner.maxPermits P) :
    (∀ es s, Run Bounded.Channel.Step (Bounded.Channel.new P T W b) es s →
      Delivery Bounded.Channel.Allowed Bounded.Channel.exec Bounded.Channel.handles
        Bounded.Channel.sentValue s) ∧
    ∀ es s, Run Unbounded.Step (Unbounded.new T W) es s →
      Delivery Unbounded.Allowed Unbounded.exec id Unbounded.sentValue s := by
  constructor
  · intro es s hrun
    obtain ⟨xs, h⟩ := Bounded.Channel.run_inv hb hrun
    exact Delivery.of_inv (I := Bounded.Channel.Inv b)
      (fun s xs h => ⟨_, Bounded.slots_accounts hb _, h.handles⟩)
      (fun s xs c h hc => Bounded.Channel.exec_spec hb h hc) h
  · intro es s hrun
    obtain ⟨xs, h⟩ := Unbounded.run_inv hrun
    exact Delivery.of_inv (I := Handles.Inv fun _ _ => True)
      (fun s xs h => ⟨_, Unlimited.accounts, h⟩) (fun s xs c h hc => Unbounded.exec_spec h hc) h

/-- A run of the bounded channel to its end: two values go through, and the sender is dropped. -/
theorem delivery_end : ∃ (es : List (Bounded.Action ℕ ℕ × Answer ℕ))
    (s : Bounded.Channel .w64 ℕ ℕ), Run Bounded.Channel.Step (Bounded.Channel.new .w64 ℕ ℕ 2) es s ∧
      s.handles.received = [10, 20] ∧ s.handles.txs = ∅ ∧
      Delivery Bounded.Channel.Allowed Bounded.Channel.exec Bounded.Channel.handles
        Bounded.Channel.sentValue s := by
  have hcheck : (replay (attempt Bounded.Channel.Allowed Bounded.Channel.exec)
      (Bounded.Channel.new .w64 ℕ ℕ 2) [.send 5 0 10, .poll 5 1, .drop 5, .send 7 0 20, .poll 7 2,
        .drop 7, .call .tryRecv, .call (.dropTx 0), .call (.recv 3)]).map
      (fun r => (r.2.handles.received, r.2.handles.txs)) = some ([10, 20], ∅) := by
    decide +kernel
  obtain ⟨⟨es, s⟩, hres, hs⟩ := Option.map_eq_some_iff.mp hcheck
  obtain ⟨hreceived, htxs⟩ := Prod.mk.inj hs
  have hrun : Run Bounded.Channel.Step _ es s := run_of_replay (fun _ _ _ _ => of_attempt) hres
  exact ⟨es, s, hrun, hreceived, htxs, (delivery (by decide)).1 es s hrun⟩

end LocalSync.Mpsc
