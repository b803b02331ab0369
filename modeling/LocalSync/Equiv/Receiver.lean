/-
  The receiver of a channel: when it learns that the channel is drained, and
  when it is woken.

  * `drained_ended_iff`: a receiver of a closed and empty channel is told so
    exactly when all senders are gone.  The end is read off `tx_count`, and not
    off the closed flag that makes every send fail.
  * `receiver_notified`: a poll that returned `Pending` is answered by the first
    event that the receiver waits for.

  Both hold of the bounded channel, whatever its buffer, and of the unbounded
  one.
-/
import LocalSync.Equiv.Delivery

namespace LocalSync.Mpsc

open Lib
open LocalSync.Semaphore (Inner Tracked)

variable {S T W : Type} [Semaphore S]

/-- The invariant holds in every run of a bounded channel, whatever its buffer. -/
theorem Bounded.Channel.run_inv_mask [Waker W] {P : PointerWidth} {b : ℕ}
    {es : List (Bounded.Action T W × Answer T)} {s : Bounded.Channel P T W}
    (hrun : Run Bounded.Channel.Step (Bounded.Channel.new P T W b) es s) :
    ∃ R xs, Accounts R ∧ s.handles.Inv R xs := by
  rw [Bounded.Channel.new_mask] at hrun
  obtain ⟨xs, h⟩ := Bounded.Channel.run_inv Nat.and_le_right hrun
  exact ⟨_, xs, Bounded.slots_accounts Nat.and_le_right _, h.handles⟩

/-! ### The end -/

namespace Handles

/-- Nothing is left to receive, and no send can succeed. -/
structure Drained (s : Handles S T W) : Prop where
  rx : s.rx = true
  closed : s.chan.isClosed = true
  empty : s.chan.queue.isEmpty = true

variable [Waker W] {R : S → ℕ → Prop} {s : Handles S T W} {xs : List T}

theorem Inv.eq_nil_of_drained (h : Inv R s xs) (hd : s.Drained) : xs = [] := by
  have hempty := hd.empty
  rw [(h.queue (Or.inr hd.rx)).isEmpty_eq] at hempty
  exact List.isEmpty_iff.mp hempty

/-- The receiver of a drained channel is told about the end exactly when the senders are gone. -/
theorem Inv.ended_iff (hR : Accounts R) (h : Inv R s xs) (hd : s.Drained) :
    s.Ended ↔ s.txs = ∅ := by
  obtain rfl := h.eq_nil_of_drained hd
  exact ⟨fun he => (h.of_reportsEnd hR hd.rx (Or.inr he.2)).2, h.ended hd.rx⟩

/-- As long as there are senders, it is told to wait. -/
theorem Inv.waits_of_drained (h : Inv R s xs) (hd : s.Drained) (htxs : s.txs ≠ ∅) (cx : W) :
    (∃ t, s.tryRecv = .ok (.error .empty, t)) ∧ ∃ t, s.recv cx = .ok (.pending, t) := by
  obtain rfl := h.eq_nil_of_drained hd
  have htry := tryRecv_nil h hd.rx
  obtain ⟨t, hrecv, -⟩ := recv_nil h hd.rx cx
  rw [if_neg htxs] at htry hrecv
  exact ⟨⟨s, htry⟩, t, hrecv⟩

end Handles

/-- **A closed and drained channel reports its end** exactly when no sender is left. -/
theorem drained_ended_iff [Waker W] {P : PointerWidth} :
    (∀ b es s, Run Bounded.Channel.Step (Bounded.Channel.new P T W b) es s → s.handles.Drained →
      (s.handles.Ended ↔ s.handles.txs = ∅)) ∧
    ∀ es s, Run Unbounded.Step (Unbounded.new T W) es s → s.Drained → (s.Ended ↔ s.txs = ∅) := by
  constructor
  · intro b es s hrun hd
    obtain ⟨R, xs, hR, h⟩ := Bounded.Channel.run_inv_mask hrun
    exact h.ended_iff hR hd
  · intro es s hrun hd
    obtain ⟨xs, h⟩ := Unbounded.run_inv hrun
    exact h.ended_iff Unlimited.accounts hd

/-- The drop of the last sender closes the channel: the receiver is told. -/
theorem drained_ended_last : ∃ es s, Run Unbounded.Step (Unbounded.new ℕ ℕ) es s ∧ s.Drained ∧
    s.Ended := by
  have hcheck : (replay (attempt Unbounded.Allowed Unbounded.exec) (Unbounded.new ℕ ℕ)
      [.call .close, .call (.dropTx 0)]).map (fun r => (r.2.rx, r.2.chan.isClosed,
        r.2.chan.queue.isEmpty, r.2.txs)) = some (true, true, true, ∅) := by
    decide +kernel
  obtain ⟨⟨es, s⟩, hres, hs⟩ := Option.map_eq_some_iff.mp hcheck
  simp only [Prod.mk.injEq] at hs
  obtain ⟨hrx, hclosed, hempty, htxs⟩ := hs
  have hrun : Run Unbounded.Step _ es s := run_of_replay (fun _ _ _ _ => of_attempt) hres
  have hd : s.Drained := ⟨hrx, hclosed, hempty⟩
  exact ⟨es, s, hrun, hd, ((drained_ended_iff (P := .w64)).2 es s hrun hd).mpr htxs⟩

/-- A receiver that closes the channel while a sender is alive: nothing can come any more, but it is
told to wait. -/
theorem drained_pending :
    (∃ es s, Run Bounded.Channel.Step (Bounded.Channel.new .w64 ℕ ℕ 1) es s ∧ s.handles.Drained ∧
      (∃ t, s.handles.tryRecv = .ok (.error .empty, t)) ∧
      ∃ t, s.handles.recv 3 = .ok (.pending, t)) ∧
    ∃ es s, Run Unbounded.Step (Unbounded.new ℕ ℕ) es s ∧ s.Drained ∧
      (∃ t, s.tryRecv = .ok (.error .empty, t)) ∧ ∃ t, s.recv 3 = .ok (.pending, t) := by
  constructor
  · have hcheck : (replay (attempt Bounded.Channel.Allowed Bounded.Channel.exec)
        (Bounded.Channel.new .w64 ℕ ℕ 1) [.call .close]).map (fun r =>
          (r.2.handles.rx, r.2.handles.chan.isClosed, r.2.handles.chan.queue.isEmpty,
            r.2.handles.txs)) = some (true, true, true, {0}) := by
      decide +kernel
    obtain ⟨⟨es, s⟩, hres, hs⟩ := Option.map_eq_some_iff.mp hcheck
    simp only [Prod.mk.injEq] at hs
    obtain ⟨hrx, hclosed, hempty, htxs⟩ := hs
    have hrun : Run Bounded.Channel.Step _ es s := run_of_replay (fun _ _ _ _ => of_attempt) hres
    obtain ⟨R, xs, -, h⟩ := Bounded.Channel.run_inv_mask hrun
    have hd : s.handles.Drained := ⟨hrx, hclosed, hempty⟩
    exact ⟨es, s, hrun, hd, h.waits_of_drained hd (htxs ▸ Finset.singleton_ne_empty 0) 3⟩
  · have hcheck : (replay (attempt Unbounded.Allowed Unbounded.exec) (Unbounded.new ℕ ℕ)
        [.call .close]).map (fun r => (r.2.rx, r.2.chan.isClosed, r.2.chan.queue.isEmpty,
          r.2.txs)) = some (true, true, true, {0}) := by
      decide +kernel
    obtain ⟨⟨es, s⟩, hres, hs⟩ := Option.map_eq_some_iff.mp hcheck
    simp only [Prod.mk.injEq] at hs
    obtain ⟨hrx, hclosed, hempty, htxs⟩ := hs
    have hrun : Run Unbounded.Step _ es s := run_of_replay (fun _ _ _ _ => of_attempt) hres
    obtain ⟨xs, h⟩ := Unbounded.run_inv hrun
    have hd : s.Drained := ⟨hrx, hclosed, hempty⟩
    exact ⟨es, s, hrun, hd, h.waits_of_drained hd (htxs ▸ Finset.singleton_ne_empty 0) 3⟩

/-! ### Wake-ups -/

/-- The call through a handle that an action of a client makes, if it is one. -/
def Bounded.Action.call? : Bounded.Action T W → Option (Call W)
  | .call c => some c
  | _ => none

/-- The call through a handle that an action of a client makes, if it is one. -/
def Unbounded.Action.call? : Unbounded.Action T W → Option (Call W)
  | .call c => some c
  | _ => none

namespace Handles

/-- What the receiver waits for: a send that succeeds, or the drop of the last `Tx`.  The call
through a handle is `call`, if the event is one. -/
def Signals (s : Handles S T W) (call : Option (Call W)) (answer : Answer T) : Prop :=
  answer = .sent (.ready (.ok ())) ∨ ∃ tx, call = some (.dropTx tx) ∧ s.txs = {tx}

/-- A step that the receiver does not notice. -/
structure Unnoticed (s t : Handles S T W) : Prop where
  rxWaker : t.chan.rxWaker = s.chan.rxWaker
  woken : t.chan.woken = s.chan.woken
  txs : s.txs.Nonempty → t.txs.Nonempty

/-- A step that wakes the receiver, if a waker is registered. -/
structure Rings (s t : Handles S T W) : Prop where
  rxWaker : t.chan.rxWaker = none
  woken : t.chan.woken = s.chan.woken ++ s.chan.rxWaker.toList

/-- **What a step does to the waker of the receiver**, when it is not a poll of the receiver. -/
inductive Effect (s t : Handles S T W) (call : Option (Call W)) (answer : Answer T) : Prop
  | rings : s.Signals call answer → s.Rings t → Effect s t call answer
  | unnoticed : ¬ s.Signals call answer → s.Unnoticed t → Effect s t call answer

omit [Semaphore S] in
/-- An answer to a call through a handle is not that of a send. -/
theorem not_signals {s : Handles S T W} {c : Call W} {answer : Answer T}
    (hc : ∀ tx, c = .dropTx tx → s.txs ≠ {tx}) (ha : ∀ r, answer ≠ .sent r) :
    ¬ s.Signals (some c) answer := by
  rintro (h | ⟨tx, h, htxs⟩)
  · exact ha _ h
  · exact hc tx (Option.some.inj h) htxs

omit [Semaphore S] in
/-- A call that is not made through a handle signals the receiver only as a send that succeeds. -/
theorem not_signals_none {s : Handles S T W} {answer : Answer T}
    (ha : answer ≠ .sent (.ready (.ok ()))) : ¬ s.Signals none answer := by
  rintro (h | ⟨tx, h, -⟩)
  · exact ha h
  · cases h

variable {s t : Handles S T W} {v : T}

omit [Semaphore S] in
/-- The last handle takes the channel along, and wakes nobody. -/
theorem release_unnoticed (h : s.release = .ok t) : s.Unnoticed t := by
  unfold release at h
  split_ifs at h
  · obtain rfl := Except.ok.inj h
    exact ⟨rfl, rfl, id⟩
  · obtain ⟨c, hc, h⟩ := bind_eq_ok.mp h
    obtain rfl := Except.ok.inj h
    obtain ⟨d, hd, hc⟩ := bind_eq_ok.mp hc
    obtain ⟨q, -, hc⟩ := bind_eq_ok.mp hc
    obtain rfl := Except.ok.inj hc
    obtain ⟨q, ds, rfl⟩ := Chan.drain_frame hd
    exact ⟨rfl, rfl, id⟩

/-- A send that succeeds wakes the receiver; one that fails changes nothing. -/
theorem send_effect {r : Except SendError Unit} (h : s.send v = .ok (r, t)) :
    (r = .ok () ∧ s.Rings t) ∨ (r = .error .rxClosed ∧ t = s) := by
  obtain ⟨⟨r', c⟩, hc, h⟩ := bind_eq_ok.mp h
  unfold Chan.send at hc
  split_ifs at hc
  · obtain ⟨rfl, rfl⟩ := Prod.mk.inj (Except.ok.inj hc)
    obtain ⟨rfl, rfl⟩ := Prod.mk.inj (Except.ok.inj h)
    exact Or.inr ⟨rfl, rfl⟩
  · obtain ⟨q, -, hc⟩ := bind_eq_ok.mp hc
    obtain ⟨rfl, rfl⟩ := Prod.mk.inj (Except.ok.inj hc)
    obtain ⟨rfl, rfl⟩ := Prod.mk.inj (Except.ok.inj h)
    exact Or.inl ⟨rfl, rfl, rfl⟩

/-- Dropping a `Tx` wakes the receiver exactly when it is the last one. -/
theorem dropTx_effect (hcount : s.chan.txCount = s.txs.card) {tx : ℕ} (htx : tx ∈ s.txs)
    (h : s.dropTx tx = .ok t) : s.Effect t (some (.dropTx tx)) .unit := by
  obtain ⟨c, hc, hrel⟩ := bind_eq_ok.mp h
  have hrelease := release_unnoticed hrel
  have hcard := Finset.card_erase_of_mem htx
  by_cases hlast : s.txs.card = 1
  · obtain ⟨x, hx⟩ := Finset.card_eq_one.mp hlast
    obtain rfl : tx = x := Finset.mem_singleton.mp (hx ▸ htx)
    refine .rings (Or.inr ⟨tx, rfl, hx⟩) ?_
    obtain ⟨u, -, hc⟩ := bind_eq_ok.mp hc
    rw [if_pos (hcount.trans hlast)] at hc
    obtain ⟨y, -, hc⟩ := bind_eq_ok.mp hc
    obtain rfl := Except.ok.inj hc
    exact ⟨hrelease.rxWaker, hrelease.woken⟩
  · have hsome : (s.txs.erase tx).Nonempty := by
      have hpos : 0 < s.txs.card := Finset.card_pos.mpr ⟨tx, htx⟩
      rw [← Finset.card_pos, hcard]
      omega
    refine .unnoticed (not_signals ?_ nofun) ?_
    · rintro tx' - hsingle
      rw [hsingle, Finset.card_singleton] at hlast
      exact hlast rfl
    · obtain ⟨u, -, hc⟩ := bind_eq_ok.mp hc
      rw [if_neg (by rwa [hcount])] at hc
      obtain rfl := Except.ok.inj hc
      exact ⟨hrelease.rxWaker, hrelease.woken, fun _ => hrelease.txs hsome⟩

variable [Waker W]

/-- **A call through a handle**, other than a poll of the receiver. -/
theorem exec_effect (hcount : s.chan.txCount = s.txs.card) {c : Call W} (hc : s.Allowed c)
    (hrecv : ∀ cx, c ≠ .recv cx) {o : Answer T} (h : s.exec c = .ok (o, t)) :
    s.Effect t (some c) o := by
  cases c with
  | clone tx new =>
    obtain ⟨rfl, rfl⟩ := Prod.mk.inj (Except.ok.inj h)
    exact .unnoticed (not_signals nofun nofun) ⟨rfl, rfl, fun _ => Finset.insert_nonempty new s.txs⟩
  | dropTx tx =>
    obtain ⟨u, hu, h⟩ := bind_eq_ok.mp h
    obtain ⟨rfl, rfl⟩ := Prod.mk.inj (Except.ok.inj h)
    exact dropTx_effect hcount hc hu
  | isClosed tx =>
    obtain ⟨rfl, rfl⟩ := Prod.mk.inj (Except.ok.inj h)
    exact .unnoticed (not_signals nofun nofun) ⟨rfl, rfl, id⟩
  | recv cx => exact absurd rfl (hrecv cx)
  | tryRecv =>
    obtain ⟨⟨r, u⟩, hu, h⟩ := bind_eq_ok.mp h
    obtain ⟨rfl, rfl⟩ := Prod.mk.inj (Except.ok.inj h)
    refine .unnoticed (not_signals nofun nofun) ?_
    obtain ⟨⟨r', c⟩, hc', hu⟩ := bind_eq_ok.mp hu
    have hframe : c.rxWaker = s.chan.rxWaker ∧ c.woken = s.chan.woken := by
      unfold Chan.tryRecv at hc'
      split_ifs at hc'
      · obtain ⟨⟨v, q⟩, -, hc'⟩ := bind_eq_ok.mp hc'
        obtain ⟨y, -, hc'⟩ := bind_eq_ok.mp hc'
        obtain ⟨-, rfl⟩ := Prod.mk.inj (Except.ok.inj hc')
        exact ⟨rfl, rfl⟩
      · obtain ⟨-, rfl⟩ := Prod.mk.inj (Except.ok.inj hc')
        exact ⟨rfl, rfl⟩
      · obtain ⟨-, rfl⟩ := Prod.mk.inj (Except.ok.inj hc')
        exact ⟨rfl, rfl⟩
    cases r' <;> obtain ⟨-, rfl⟩ := Prod.mk.inj (Except.ok.inj hu) <;>
      exact ⟨hframe.1, hframe.2, id⟩
  | close =>
    obtain ⟨u, hu, h⟩ := bind_eq_ok.mp h
    obtain ⟨rfl, rfl⟩ := Prod.mk.inj (Except.ok.inj h)
    refine .unnoticed (not_signals nofun nofun) ?_
    obtain ⟨c, hc', hu⟩ := bind_eq_ok.mp hu
    obtain rfl := Except.ok.inj hu
    obtain ⟨y, -, hc'⟩ := bind_eq_ok.mp hc'
    obtain rfl := Except.ok.inj hc'
    exact ⟨rfl, rfl, id⟩
  | dropRx =>
    obtain ⟨u, hu, h⟩ := bind_eq_ok.mp h
    obtain ⟨rfl, rfl⟩ := Prod.mk.inj (Except.ok.inj h)
    refine .unnoticed (not_signals nofun nofun) ?_
    obtain ⟨c, hc', hrel⟩ := bind_eq_ok.mp hu
    have hrelease := release_unnoticed hrel
    obtain ⟨c₁, hc₁, hc'⟩ := bind_eq_ok.mp hc'
    obtain ⟨y, -, hc₁⟩ := bind_eq_ok.mp hc₁
    obtain rfl := Except.ok.inj hc₁
    obtain ⟨c₂, hc₂, hc'⟩ := bind_eq_ok.mp hc'
    obtain ⟨z, -, hc'⟩ := bind_eq_ok.mp hc'
    obtain rfl := Except.ok.inj hc'
    obtain ⟨q, ds, rfl⟩ := Chan.drain_frame hc₂
    exact ⟨hrelease.rxWaker, hrelease.woken, hrelease.txs⟩

/-- A poll of the receiver does not wake it. -/
theorem recv_woken {cx : W} {r : Poll (Option T)} (h : s.recv cx = .ok (r, t)) :
    t.chan.woken = s.chan.woken := by
  obtain ⟨⟨r', c⟩, hrecv, h⟩ := bind_eq_ok.mp h
  have hwoken : c.woken = s.chan.woken := by
    unfold Chan.recv at hrecv
    split_ifs at hrecv
    · obtain ⟨⟨v, q⟩, -, hrecv⟩ := bind_eq_ok.mp hrecv
      obtain ⟨y, -, hrecv⟩ := bind_eq_ok.mp hrecv
      obtain ⟨-, rfl⟩ := Prod.mk.inj (Except.ok.inj hrecv)
      rfl
    · obtain ⟨-, rfl⟩ := Prod.mk.inj (Except.ok.inj hrecv)
      rfl
    · obtain ⟨-, rfl⟩ := Prod.mk.inj (Except.ok.inj hrecv)
      obtain ⟨w, heq, -⟩ := s.chan.register_eq cx
      rw [heq]
  rcases r' with (_ | v) | _ <;> obtain ⟨-, rfl⟩ := Prod.mk.inj (Except.ok.inj h) <;> exact hwoken

/-- The receiver waits: a waker of the task of `w` is registered, nobody has been woken since
`woken`, and some `Tx` is alive. -/
structure Waiting (s : Handles S T W) (w : W) (woken : List W) : Prop where
  registered : ∃ w', s.chan.rxWaker = some w' ∧ Waker.task w' = Waker.task w
  woken : s.chan.woken = woken
  txs : s.txs.Nonempty

/-- The receiver has been woken once since `woken`, with a waker of the task of `w`. -/
structure Woken (s : Handles S T W) (w : W) (woken : List W) : Prop where
  rxWaker : s.chan.rxWaker = none
  woken : ∃ w', s.chan.woken = woken ++ [w'] ∧ Waker.task w' = Waker.task w

variable {w : W} {woken : List W} {call : Option (Call W)} {o : Answer T}

omit [Semaphore S] in
theorem Waiting.unnoticed (h : s.Waiting w woken) (ht : s.Unnoticed t) : t.Waiting w woken where
  registered := by
    rw [ht.rxWaker]
    exact h.registered
  woken := ht.woken.trans h.woken
  txs := ht.txs h.txs

omit [Semaphore S] in
theorem Waiting.rings (h : s.Waiting w woken) (ht : s.Rings t) : t.Woken w woken where
  rxWaker := ht.rxWaker
  woken := by
    obtain ⟨w', hw', htask⟩ := h.registered
    refine ⟨w', ?_, htask⟩
    rw [ht.woken, h.woken, hw']
    rfl

omit [Semaphore S] in
/-- Who has been woken is not woken again. -/
theorem Woken.step (h : s.Woken w woken) (ht : s.Effect t call o) : t.Woken w woken := by
  obtain ⟨w', hwoken, htask⟩ := h.woken
  cases ht with
  | rings _ ht =>
    refine ⟨ht.rxWaker, w', ?_, htask⟩
    rw [ht.woken, h.rxWaker, hwoken]
    exact List.append_nil _
  | unnoticed _ ht => exact ⟨ht.rxWaker.trans h.rxWaker, w', ht.woken.trans hwoken, htask⟩

end Handles

section Notified

variable [Waker W] {σ α : Type}

/-- **Since a poll** with the waker `w` that led to `t`, the events `es` have led to `u`: the
receiver still waits and no send has succeeded, or it has been woken, once, by the first event that
it waited for. -/
inductive Awaits (step : σ → α × Answer T → σ → Prop) (handles : σ → Handles S T W)
    (call? : α → Option (Call W)) (w : W) (t : σ) (es : List (α × Answer T)) (u : σ) : Prop
  | waiting : (∀ e ∈ es, e.2 ≠ .sent (.ready (.ok ()))) →
      (handles u).Waiting w (handles t).chan.woken → Awaits step handles call? w t es u
  | woken (es₁ : List (α × Answer T)) (e : α × Answer T) (es₂ : List (α × Answer T)) (v v' : σ) :
      es = es₁ ++ e :: es₂ → (∀ e ∈ es₁, e.2 ≠ .sent (.ready (.ok ()))) →
      Run step t es₁ v → (handles v).Waiting w (handles t).chan.woken →
      (handles v).Signals (call? e.1) e.2 → step v e v' → Run step v' es₂ u →
      (handles v').Woken w (handles t).chan.woken → (handles u).Woken w (handles t).chan.woken →
      Awaits step handles call? w t es u

/-- **The receiver is notified**, from a state on. -/
structure Notified (step : σ → α × Answer T → σ → Prop) (handles : σ → Handles S T W)
    (call? : α → Option (Call W)) (s : σ) : Prop where
  /-- A waker is registered only while the queue is empty and a value can still come. -/
  idle : (handles s).chan.rxWaker.isSome = true →
    (handles s).chan.queue.isEmpty = true ∧ (handles s).txs.Nonempty
  /-- A poll that returns `Pending` is answered by the first event that the receiver waits for. -/
  polled : ∀ a cx t, call? a = some (.recv cx) → step s (a, .received .pending) t →
    ∀ es u, Run step t es u → (∀ e ∈ es, ∀ cx', call? e.1 ≠ some (.recv cx')) →
      Awaits step handles call? cx t es u

variable {step : σ → α × Answer T → σ → Prop} {handles : σ → Handles S T W}
  {call? : α → Option (Call W)} {I : σ → Prop} {w : W} {t u : σ} {es : List (α × Answer T)}

omit [Semaphore S] in
/-- **The events since a poll**, one after the other. -/
theorem Awaits.of_run (hstep : ∀ s e t, I s → step s e t → I t)
    (heffect : ∀ s e t, I s → step s e t → (∀ cx, call? e.1 ≠ some (.recv cx)) →
      (handles s).Effect (handles t) (call? e.1) e.2)
    (ht : I t) (hwait : (handles t).Waiting w (handles t).chan.woken) (hrun : Run step t es u)
    (hes : ∀ e ∈ es, ∀ cx, call? e.1 ≠ some (.recv cx)) : Awaits step handles call? w t es u := by
  have key : I u ∧ Awaits step handles call? w t es u := by
    induction hrun with
    | nil => exact ⟨ht, .waiting (fun e he => absurd he List.not_mem_nil) hwait⟩
    | @snoc es e v u hrun hlast ih =>
      obtain ⟨hv, hawaits⟩ := ih fun e he => hes e (List.mem_append_left _ he)
      have heff := heffect v e u hv hlast
        (hes e (List.mem_append_right _ (List.mem_singleton_self e)))
      refine ⟨hstep v e u hv hlast, ?_⟩
      cases hawaits with
      | waiting hquiet hw =>
        cases heff with
        | rings hsignals hrings =>
          exact .woken es e [] v u rfl hquiet hrun hw hsignals hlast .nil (hw.rings hrings)
            (hw.rings hrings)
        | unnoticed hno hunnoticed =>
          refine .waiting (fun e' he' => ?_) (hw.unnoticed hunnoticed)
          rcases List.mem_append.mp he' with he' | he'
          · exact hquiet e' he'
          · rw [List.mem_singleton.mp he']
            exact fun hok => hno (Or.inl hok)
      | woken es₁ e₁ es₂ v₁ v₂ hes' hquiet hrun₁ hw hsignals hstep₁ hrun₂ hwoken₁ hwoken =>
        refine .woken es₁ e₁ (es₂ ++ [e]) v₁ v₂ ?_ hquiet hrun₁ hw hsignals hstep₁
          (hrun₂.snoc hlast) hwoken₁ (hwoken.step heff)
        rw [hes', List.append_assoc, List.cons_append]
  exact key.2

/-- After a poll that returned `Pending` the receiver waits. -/
theorem Handles.waiting_of_recv {R : S → ℕ → Prop} {s t : Handles S T W} {xs : List T} {cx : W}
    (hres : s.exec (.recv cx) = .ok (.received .pending, t)) (ht : t.Inv R xs) :
    t.Waiting cx t.chan.woken := by
  obtain ⟨⟨r, u⟩, hu, hres⟩ := bind_eq_ok.mp hres
  obtain ⟨hr, rfl⟩ := Prod.mk.inj (Except.ok.inj hres)
  obtain ⟨⟨r', c⟩, -, hu⟩ := bind_eq_ok.mp hu
  have hpolled : u.polled = some (cx, u.chan.woken.length) := by
    rcases r' with (_ | v) | _ <;> obtain ⟨rfl, rfl⟩ := Prod.mk.inj (Except.ok.inj hu)
    · cases hr
    · cases hr
    · rfl
  cases ht.flow.polled cx _ hpolled with
  | registered w' hw' htask =>
    have hsome : u.chan.rxWaker.isSome = true := by rw [hw']; rfl
    exact ⟨⟨w', hw', htask⟩, rfl, (ht.flow.waker hsome).2⟩
  | woken w' _ hdrop =>
    rw [List.drop_length] at hdrop
    cases hdrop

/-- The receiver is notified when every step keeps the invariant of the handles, and treats the
waker as a call through a handle would. -/
theorem Notified.of_inv (hI : ∀ s, I s → ∃ (R : S → ℕ → Prop) (xs : List T), (handles s).Inv R xs)
    (hstep : ∀ s e t, I s → step s e t → I t)
    (hcall : ∀ s a c o t, call? a = some c → step s (a, o) t →
      (handles s).exec c = .ok (o, handles t))
    (heffect : ∀ s e t, I s → step s e t → (∀ cx, call? e.1 ≠ some (.recv cx)) →
      (handles s).Effect (handles t) (call? e.1) e.2)
    {s : σ} (h : I s) : Notified step handles call? s where
  idle hw := by
    obtain ⟨R, xs, hinv⟩ := hI s h
    obtain ⟨rfl, htxs⟩ := hinv.flow.waker hw
    refine ⟨?_, htxs⟩
    rw [Queue.isEmpty, hinv.len_eq]
    rfl
  polled a cx t hrecv hpoll es u hrun hes := by
    have ht := hstep s _ t h hpoll
    obtain ⟨R, xs, hinv⟩ := hI t ht
    exact .of_run hstep heffect ht (Handles.waiting_of_recv (hcall s a _ _ t hrecv hpoll) hinv)
      hrun hes

end Notified

/-! ### The bounded channel -/

namespace Bounded.Channel

variable {P : PointerWidth} {s t : Channel P T W} {i : Addr}

/-- Waiting for a slot leaves the waker of the receiver alone. -/
theorem acquireSlot_frame [Waker W] {c d : Chan (Tracked P W) T W} {first : Bool} {cx : W}
    {r : Poll (Except LocalSync.Semaphore.AcquireError Unit)}
    (h : acquireSlot c i first cx = .ok (r, d)) : ∃ y, d = { c with semaphore := y } := by
  obtain ⟨⟨r', y⟩, -, h⟩ := bind_eq_ok.mp h
  obtain ⟨-, rfl⟩ := Prod.mk.inj (Except.ok.inj h)
  exact ⟨y, rfl⟩

/-- A send wakes the receiver exactly when it succeeds. -/
theorem resume_effect [Waker W] {tx : ℕ} {v : T} {first : Bool} {cx : W}
    {r : Poll (Except SendError Unit)} (h : s.resume i tx v first cx = .ok (r, t)) :
    s.handles.Effect t.handles none (.sent r) := by
  obtain ⟨⟨r', d⟩, hacq, h⟩ := bind_eq_ok.mp h
  obtain ⟨y, rfl⟩ := acquireSlot_frame hacq
  rcases r' with (e | u) | _
  · obtain ⟨rfl, rfl⟩ := Prod.mk.inj (Except.ok.inj h)
    exact .unnoticed (Handles.not_signals_none (by simp)) ⟨rfl, rfl, id⟩
  · obtain ⟨⟨r'', u'⟩, hsend, h⟩ := bind_eq_ok.mp h
    obtain ⟨rfl, rfl⟩ := Prod.mk.inj (Except.ok.inj h)
    rcases Handles.send_effect hsend with ⟨rfl, hrings⟩ | ⟨rfl, rfl⟩
    · exact .rings (Or.inl rfl) ⟨hrings.rxWaker, hrings.woken⟩
    · exact .unnoticed (Handles.not_signals_none (by simp)) ⟨rfl, rfl, id⟩
  · obtain ⟨rfl, rfl⟩ := Prod.mk.inj (Except.ok.inj h)
    exact .unnoticed (Handles.not_signals_none (by simp)) ⟨rfl, rfl, id⟩

/-- **One call**, other than a poll of the receiver. -/
theorem step_effect [Waker W] (hcount : s.handles.chan.txCount = s.handles.txs.card)
    {e : Action T W × Answer T} (hstep : s.Step e t)
    (hrecv : ∀ cx, e.1.call? ≠ some (.recv cx)) :
    s.handles.Effect t.handles e.1.call? e.2 := by
  obtain ⟨c, o⟩ := e
  obtain ⟨hc, hres⟩ := hstep
  cases c with
  | call c =>
    obtain ⟨⟨o', u⟩, hu, hres⟩ := bind_eq_ok.mp hres
    obtain ⟨rfl, rfl⟩ := Prod.mk.inj (Except.ok.inj hres)
    have hallowed : s.handles.Allowed c := by
      cases c with
      | dropTx tx => exact hc.1
      | _ => exact hc
    exact Handles.exec_effect hcount hallowed (fun cx hcx => hrecv cx (congrArg some hcx)) hu
  | send i tx v =>
    obtain ⟨rfl, rfl⟩ := Prod.mk.inj (Except.ok.inj hres)
    exact .unnoticed (Handles.not_signals_none (by simp)) ⟨rfl, rfl, id⟩
  | poll i cx =>
    obtain ⟨⟨r, u⟩, hu, hres⟩ := bind_eq_ok.mp hres
    obtain ⟨rfl, rfl⟩ := Prod.mk.inj (Except.ok.inj hres)
    unfold pollSend at hu
    split at hu
    · cases hu
    · exact resume_effect hu
    · exact resume_effect hu
    · cases hu
  | drop i =>
    obtain ⟨u, hu, hres⟩ := bind_eq_ok.mp hres
    obtain ⟨rfl, rfl⟩ := Prod.mk.inj (Except.ok.inj hres)
    refine .unnoticed (Handles.not_signals_none (by simp)) ?_
    unfold dropSend at hu
    split at hu
    · cases hu
    · obtain ⟨y, -, hu⟩ := bind_eq_ok.mp hu
      obtain rfl := Except.ok.inj hu
      exact ⟨rfl, rfl, id⟩
    · obtain rfl := Except.ok.inj hu
      exact ⟨rfl, rfl, id⟩

end Bounded.Channel

/-! ### The unbounded channel -/

/-- **One call**, other than a poll of the receiver. -/
theorem Unbounded.step_effect [Waker W] {s t : Unbounded.Channel T W}
    (hcount : s.chan.txCount = s.txs.card) {e : Unbounded.Action T W × Answer T}
    (hstep : Unbounded.Step s e t) (hrecv : ∀ cx, e.1.call? ≠ some (.recv cx)) :
    s.Effect t e.1.call? e.2 := by
  obtain ⟨c, o⟩ := e
  obtain ⟨hc, hres⟩ := hstep
  cases c with
  | call c => exact Handles.exec_effect hcount hc (fun cx hcx => hrecv cx (congrArg some hcx)) hres
  | send tx v =>
    obtain ⟨⟨r, u⟩, hu, hres⟩ := bind_eq_ok.mp hres
    obtain ⟨rfl, rfl⟩ := Prod.mk.inj (Except.ok.inj hres)
    rcases Handles.send_effect hu with ⟨rfl, hrings⟩ | ⟨rfl, rfl⟩
    · exact .rings (Or.inl rfl) hrings
    · exact .unnoticed (Handles.not_signals_none (by simp)) ⟨rfl, rfl, id⟩

/-- **The receiver loses no wake-up**, in any state of any run of either channel. -/
theorem receiver_notified [Waker W] {P : PointerWidth} :
    (∀ b es s, Run Bounded.Channel.Step (Bounded.Channel.new P T W b) es s →
      Notified Bounded.Channel.Step Bounded.Channel.handles Bounded.Action.call? s) ∧
    ∀ es s, Run Unbounded.Step (Unbounded.new T W) es s →
      Notified Unbounded.Step id Unbounded.Action.call? s := by
  constructor
  · intro b es s hrun
    rw [Bounded.Channel.new_mask] at hrun
    have hb : b &&& Inner.maxPermits P ≤ Inner.maxPermits P := Nat.and_le_right
    refine .of_inv (I := fun s => ∃ xs, Bounded.Channel.Inv (b &&& Inner.maxPermits P) s xs)
      (fun s ⟨xs, h⟩ => ⟨_, xs, h.handles⟩) ?_ ?_ ?_ (Bounded.Channel.run_inv hb hrun)
    · rintro s ⟨c, o⟩ t ⟨xs, h⟩ ⟨hc, hres⟩
      obtain ⟨o', t', ys, hres', hinv, -⟩ := Bounded.Channel.exec_spec hb h hc
      obtain ⟨-, rfl⟩ := Prod.mk.inj (Except.ok.inj (hres.symm.trans hres'))
      exact ⟨ys, hinv⟩
    · rintro s (c | _ | _ | _) c' o t hcall ⟨-, hres⟩
      · obtain rfl := Option.some.inj hcall
        obtain ⟨⟨o', u⟩, hu, hres⟩ := bind_eq_ok.mp hres
        obtain ⟨rfl, rfl⟩ := Prod.mk.inj (Except.ok.inj hres)
        exact hu
      all_goals cases hcall
    · exact fun s e t ⟨xs, h⟩ hstep hrecv =>
        Bounded.Channel.step_effect h.handles.flow.count hstep hrecv
  · intro es s hrun
    refine .of_inv (I := fun s => ∃ xs, Handles.Inv (fun _ _ => True) s xs)
      (fun s ⟨xs, h⟩ => ⟨_, xs, h⟩) ?_ ?_ ?_ (Unbounded.run_inv hrun)
    · rintro s ⟨c, o⟩ t ⟨xs, h⟩ ⟨hc, hres⟩
      obtain ⟨o', t', ys, hres', hinv, -⟩ := Unbounded.exec_spec h hc
      obtain ⟨-, rfl⟩ := Prod.mk.inj (Except.ok.inj (hres.symm.trans hres'))
      exact ⟨ys, hinv⟩
    · rintro s (c | _) c' o t hcall ⟨-, hres⟩
      · obtain rfl := Option.some.inj hcall
        exact hres
      · cases hcall
    · exact fun s e t ⟨xs, h⟩ hstep hrecv => Unbounded.step_effect h.flow.count hstep hrecv

/-- A receiver that polls twice, with different wakers, before a value comes. -/
theorem receiver_notified_twice : ∃ es s, Run Unbounded.Step (Unbounded.new ℕ ℕ) es s ∧
    s.chan.rxWaker = some 4 ∧ Notified Unbounded.Step id Unbounded.Action.call? s := by
  have hcheck : (replay (attempt Unbounded.Allowed Unbounded.exec) (Unbounded.new ℕ ℕ)
      [.call (.recv 3), .call (.clone 0 1), .call (.recv 4), .call (.dropTx 0)]).map
      (fun r => r.2.chan.rxWaker) = some (some 4) := by
    decide +kernel
  obtain ⟨⟨es, s⟩, hres, hs⟩ := Option.map_eq_some_iff.mp hcheck
  have hrun : Run Unbounded.Step _ es s := run_of_replay (fun _ _ _ _ => of_attempt) hres
  exact ⟨es, s, hrun, hs, (receiver_notified (P := .w64)).2 es s hrun⟩

end LocalSync.Mpsc
