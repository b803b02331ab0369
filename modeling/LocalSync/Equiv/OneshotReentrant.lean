/-
  The oneshot channel with wakers that use it, against the plain one.

  Whatever the code of the wakers does during a call, the calls it makes have the
  same effect as if they had been made all after the call or all before it.

  * `complete` and `close` wake at their end.  What comes after, the release of an
    `Rc`, can be brought forward: it makes no difference to the calls made
    meanwhile (`owesTx_exec`, `owesRx_exec`).  So these are calls made after.
  * The polls run code of wakers while their flag is not set, when the other end
    has nothing to wake, and look at the state again afterwards.  So these are
    calls made before.

  From each call (`execWith_spec`) it follows that every run is, call by call, a
  run of the machine (`reentrant_linearizable`).
-/
import LocalSync.Equiv.OneshotWakers
import LocalSync.Oneshot.Reentrant

namespace LocalSync.Oneshot

open Lib

variable {P : PointerWidth} {T W : Type}

/-- Unsetting the receiver's flag leaves the other flags. -/
theorem State.unsetRxTask_frame (s : State P) : s.unsetRxTask.isClosed = s.isClosed ∧
    s.unsetRxTask.isTxTaskSet = s.isTxTaskSet :=
  ⟨Flags.has_unset_of_ne _ _ (by decide), Flags.has_unset_of_ne _ _ (by decide)⟩

/-- Unsetting the sender's flag leaves the other flags. -/
theorem State.unsetTxTask_frame (s : State P) : s.unsetTxTask.isComplete = s.isComplete ∧
    s.unsetTxTask.isRxTaskSet = s.isRxTaskSet :=
  ⟨Flags.has_unset_of_ne _ _ (by decide), Flags.has_unset_of_ne _ _ (by decide)⟩

namespace System

variable [Waker W] {s t u v : System P T W} {a b : Spec T} {c : Action T W} {o : Answer T}
  {cs : List (Action T W)} {log : Log T W} {x y : Inner P T W}

/-! ### Frames -/

omit [Waker W] in
theorem handles_dropRc (h : s.dropRc = .ok t) : t.tx = s.tx ∧ t.rx = s.rx := by
  unfold dropRc at h
  dsimp only at h
  split_ifs at h
  · obtain ⟨y, -, hy⟩ := bind_eq_ok.mp h
    obtain rfl := Except.ok.inj hy
    exact ⟨rfl, rfl⟩
  · obtain rfl := Except.ok.inj h
    exact ⟨rfl, rfl⟩

/-- A call of the sender leaves the receiver alone. -/
theorem rx_exec (hc : c.ofSender = true) (h : s.exec c = .ok (o, t)) : t.rx = s.rx := by
  cases c with
  | pollClosed cx =>
    obtain ⟨⟨r, u⟩, hu, h⟩ := bind_eq_ok.mp h
    obtain ⟨-, rfl⟩ := Prod.mk.inj (Except.ok.inj h)
    obtain ⟨x, -, hx⟩ := bind_eq_ok.mp hu
    obtain ⟨⟨r', y⟩, -, hy⟩ := bind_eq_ok.mp hx
    obtain ⟨-, rfl⟩ := Prod.mk.inj (Except.ok.inj hy)
    rfl
  | isClosed =>
    obtain ⟨r, -, h⟩ := bind_eq_ok.mp h
    obtain ⟨-, rfl⟩ := Prod.mk.inj (Except.ok.inj h)
    rfl
  | send v =>
    obtain ⟨⟨r, u⟩, hu, h⟩ := bind_eq_ok.mp h
    obtain ⟨-, rfl⟩ := Prod.mk.inj (Except.ok.inj h)
    obtain ⟨x, -, hx⟩ := bind_eq_ok.mp hu
    obtain ⟨⟨sent, y⟩, -, hy⟩ := bind_eq_ok.mp hx
    cases sent with
    | true =>
      obtain ⟨z, hz, hy⟩ := bind_eq_ok.mp hy
      obtain ⟨-, rfl⟩ := Prod.mk.inj (Except.ok.inj hy)
      exact (handles_dropRc hz).2
    | false =>
      simp only [Bool.not_false, if_true] at hy
      split at hy
      · obtain ⟨z, hz, hy⟩ := bind_eq_ok.mp hy
        obtain ⟨-, rfl⟩ := Prod.mk.inj (Except.ok.inj hy)
        exact (handles_dropRc hz).2
      · cases hy
  | dropTx =>
    obtain ⟨u, hu, h⟩ := bind_eq_ok.mp h
    obtain ⟨-, rfl⟩ := Prod.mk.inj (Except.ok.inj h)
    unfold dropTx at hu
    split at hu
    · cases hu
    · obtain rfl := Except.ok.inj hu
      rfl
    · obtain ⟨⟨r, y⟩, -, hy⟩ := bind_eq_ok.mp hu
      exact (handles_dropRc hy).2
  | _ => cases hc

/-- A call of the receiver leaves the sender alone. -/
theorem tx_exec (hc : c.ofSender = false) (h : s.exec c = .ok (o, t)) : t.tx = s.tx := by
  cases c with
  | poll cx =>
    rw [exec] at h
    split at h
    · next hres =>
      obtain ⟨-, rfl⟩ := Prod.mk.inj (Except.ok.inj h)
      unfold poll at hres
      split at hres
      · cases hres
      · cases hres
      · obtain ⟨⟨r, y⟩, -, hy⟩ := bind_eq_ok.mp hres
        rcases r with (e | v) | _
        · obtain ⟨-, rfl⟩ := Prod.mk.inj (Except.ok.inj hy)
          rfl
        · obtain ⟨z, hz, hy⟩ := bind_eq_ok.mp hy
          obtain ⟨-, rfl⟩ := Prod.mk.inj (Except.ok.inj hy)
          exact (handles_dropRc hz).1
        · obtain ⟨-, rfl⟩ := Prod.mk.inj (Except.ok.inj hy)
          rfl
    · obtain ⟨-, rfl⟩ := Prod.mk.inj (Except.ok.inj h)
      rfl
    · cases h
  | tryRecv =>
    obtain ⟨⟨r, u⟩, hu, h⟩ := bind_eq_ok.mp h
    obtain ⟨-, rfl⟩ := Prod.mk.inj (Except.ok.inj h)
    unfold tryRecv at hu
    split at hu
    · cases hu
    · obtain ⟨-, rfl⟩ := Prod.mk.inj (Except.ok.inj hu)
      rfl
    · dsimp only at hu
      split_ifs at hu
      · split at hu
        · obtain ⟨z, hz, hy⟩ := bind_eq_ok.mp hu
          obtain ⟨-, rfl⟩ := Prod.mk.inj (Except.ok.inj hy)
          exact (handles_dropRc hz).1
        · obtain ⟨z, hz, hy⟩ := bind_eq_ok.mp hu
          obtain ⟨-, rfl⟩ := Prod.mk.inj (Except.ok.inj hy)
          exact (handles_dropRc hz).1
      · obtain ⟨z, hz, hy⟩ := bind_eq_ok.mp hu
        obtain ⟨-, rfl⟩ := Prod.mk.inj (Except.ok.inj hy)
        exact (handles_dropRc hz).1
      · obtain ⟨-, rfl⟩ := Prod.mk.inj (Except.ok.inj hu)
        rfl
  | close =>
    obtain ⟨u, hu, h⟩ := bind_eq_ok.mp h
    obtain ⟨-, rfl⟩ := Prod.mk.inj (Except.ok.inj h)
    unfold close at hu
    split at hu
    · cases hu
    · obtain rfl := Except.ok.inj hu
      rfl
    · obtain ⟨y, -, hy⟩ := bind_eq_ok.mp hu
      obtain rfl := Except.ok.inj hy
      rfl
  | dropRx =>
    obtain ⟨u, hu, h⟩ := bind_eq_ok.mp h
    obtain ⟨-, rfl⟩ := Prod.mk.inj (Except.ok.inj h)
    unfold dropRx at hu
    split at hu
    · cases hu
    · obtain rfl := Except.ok.inj hu
      rfl
    · obtain ⟨y, -, hy⟩ := bind_eq_ok.mp hu
      exact (handles_dropRc hy).1
  | _ => cases hc

/-! ### The calls that a waker makes -/

/-- A state of a run: it follows the machine, and the slots of a channel that is gone are empty. -/
structure Good (s : System P T W) (a : Spec T) : Prop where
  refines : Refines s a
  emptied : s.strong = 0 → Emptied s

theorem Good.step (h : Good s a) (hstep : Step s (c, o) t) :
    ∃ b, Spec.Step a (c, o) b ∧ Good t b := by
  obtain ⟨b, hspec, ht⟩ := step_spec h.refines hstep
  exact ⟨b, hspec, ht, emptied_of_step h.refines h.emptied hstep⟩

/-- **The code of a waker** makes a run, and keeps what each of its calls keeps. -/
theorem nest_spec (end_ : Bool) {K : System P T W → Prop}
    (hK : ∀ s a c o t, Good s a → c.ofSender = end_ → Step s (c, o) t → K s → K t)
    (cs : List (Action T W)) (h : Good s a) (hs : K s) :
    ∃ log t b, nest end_ cs s = .ok (log, t) ∧ Run Spec.Step a log b ∧ Good t b ∧ K t ∧
      ∀ e ∈ log, e.1.ofSender = end_ := by
  induction cs generalizing s a with
  | nil => exact ⟨[], s, a, rfl, .nil, h, hs, fun e he => absurd he List.not_mem_nil⟩
  | cons c cs ih =>
    rw [nest]
    split_ifs with hc
    · obtain ⟨o, t, hres, -⟩ := exec_spec h.refines hc.2
      have hstep : Step s (c, o) t := ⟨hc.2, hres⟩
      obtain ⟨b, hspec, ht⟩ := h.step hstep
      obtain ⟨log, u, d, hnest, hrun, hu, hKu, hlog⟩ := ih ht (hK s a c o t h hc.1 hstep hs)
      refine ⟨(c, o) :: log, u, d, ?_, .cons hspec hrun, hu, hKu, fun e he => ?_⟩
      · rw [hres, ok_bind]
        dsimp only
        rw [hnest]
        rfl
      · rcases List.mem_cons.mp he with rfl | he
        · exact hc.1
        · exact hlog e he
    · exact ih h hs

/-- **Two states in which a waker can make the same calls**, with the same answers. -/
theorem nest_simulates (end_ : Bool) {R : System P T W → System P T W → Prop}
    (hR : ∀ s u c, R s u → c.ofSender = end_ → (s.Allowed c ↔ u.Allowed c) ∧
      ∀ o u', u.Step (c, o) u' → ∃ s', s.exec c = .ok (o, s') ∧ R s' u')
    (h : R s u) (hu : nest end_ cs u = .ok (log, v)) :
    ∃ t, nest end_ cs s = .ok (log, t) ∧ R t v := by
  induction cs generalizing s u log with
  | nil =>
    obtain ⟨rfl, rfl⟩ := Prod.mk.inj (Except.ok.inj hu)
    exact ⟨s, rfl, h⟩
  | cons c cs ih =>
    rw [nest] at hu ⊢
    by_cases hend : c.ofSender = end_
    swap
    · rw [if_neg fun hc => hend hc.1] at hu ⊢
      exact ih h hu
    obtain ⟨hallowed, hexec⟩ := hR s u c h hend
    by_cases hc : u.Allowed c
    · rw [if_pos ⟨hend, hc⟩] at hu
      rw [if_pos ⟨hend, hallowed.mpr hc⟩]
      obtain ⟨⟨o, u'⟩, hres, hu⟩ := bind_eq_ok.mp hu
      obtain ⟨⟨log', v'⟩, hnest, hu⟩ := bind_eq_ok.mp hu
      obtain ⟨rfl, rfl⟩ := Prod.mk.inj (Except.ok.inj hu)
      obtain ⟨s', hres', hs'⟩ := hexec o u' ⟨hc, hres⟩
      obtain ⟨t, hnest', ht⟩ := ih hs' hnest
      refine ⟨t, ?_, ht⟩
      rw [hres', ok_bind]
      dsimp only
      rw [hnest']
      rfl
    · rw [if_neg fun hc' => hc hc'.2] at hu
      rw [if_neg fun hc' => hc (hallowed.mp hc'.2)]
      exact ih h hu

/-! ### An `Rc` that is dropped later

`released` is the drop of an `Rc` in closed form.  The end that calls `complete` or `close` and goes
still has its `Rc` while the waker runs. -/

/-- The state after an `Rc` is dropped. -/
def released (s : System P T W) : System P T W :=
  if s.strong - 1 = 0 then { s with strong := s.strong - 1, inner := s.inner.freed }
  else { s with strong := s.strong - 1 }

omit [Waker W] in
theorem dropRc_eq (h : s.inner.Sound) : s.dropRc = .ok s.released := by
  unfold dropRc released
  dsimp only
  split_ifs
  · rw [Inner.drop_eq h]
    rfl
  · rfl

/-- What the receiver does in a channel that is complete: its slot stays as it is, and it keeps its
`Rc` or drops it at the end. -/
theorem exec_rx_shape (h : x.Sound) (hx : x.state.isComplete = true) (hc : c.ofSender = false) :
    ∃ o y, y.Sound ∧ y.state.isComplete = true ∧ y.rxTask = x.rxTask ∧
      ((∀ n tx, exec ⟨x, n, tx, some ⟨true⟩⟩ c = .ok (o, ⟨y, n, tx, some ⟨true⟩⟩)) ∨
        ∃ r, r ≠ some ⟨true⟩ ∧
          ∀ n tx, exec ⟨x, n, tx, some ⟨true⟩⟩ c = .ok (o, released ⟨y, n, tx, r⟩)) := by
  have hsound : x.consumeValue.2.Sound := ⟨h.rx, h.tx⟩
  cases c with
  | poll cx =>
    have hpoll := Inner.pollRecv_eq h cx
    rw [if_pos hx, Inner.recvValue] at hpoll
    cases hv : x.value with
    | some v =>
      rw [show x.consumeValue = (some v, x.consumeValue.2) from Prod.ext hv rfl] at hpoll
      refine ⟨.received (.ready (.ok v)), x.consumeValue.2, hsound, hx, rfl,
        .inr ⟨some ⟨false⟩, by simp, fun n tx => ?_⟩⟩
      have hfinish : finish ⟨x.consumeValue.2, n, tx, some ⟨true⟩⟩ =
          .ok (released ⟨x.consumeValue.2, n, tx, some ⟨false⟩⟩) := dropRc_eq hsound
      rw [exec, poll_eq_value (s := ⟨x, n, tx, some ⟨true⟩⟩) rfl hpoll hfinish]
    | none =>
      rw [show x.consumeValue = (none, x.consumeValue.2) from Prod.ext hv rfl] at hpoll
      refine ⟨.received (.ready (.error ⟨⟩)), x.consumeValue.2, hsound, hx, rfl,
        .inl fun n tx => ?_⟩
      rw [exec, poll_eq rfl hpoll (by simp)]
  | tryRecv =>
    cases hv : x.value with
    | some v =>
      refine ⟨.tried (.ok v), x.consumeValue.2, hsound, hx, rfl,
        .inr ⟨some ⟨false⟩, by simp, fun n tx => ?_⟩⟩
      rw [exec, tryRecv]
      dsimp only
      rw [if_pos hx, show x.consumeValue = (some v, x.consumeValue.2) from Prod.ext hv rfl]
      dsimp only
      rw [finish, dropRc_eq hsound]
      rfl
    | none =>
      refine ⟨.tried (.error .closed), x.consumeValue.2, hsound, hx, rfl,
        .inr ⟨some ⟨false⟩, by simp, fun n tx => ?_⟩⟩
      rw [exec, tryRecv]
      dsimp only
      rw [if_pos hx, show x.consumeValue = (none, x.consumeValue.2) from Prod.ext hv rfl]
      dsimp only
      rw [finish, dropRc_eq hsound]
      rfl
  | close =>
    refine ⟨.unit, x.shut, h.shut, (State.setClosed_flags _).1.trans hx, rfl, .inl fun n tx => ?_⟩
    rw [exec, close]
    dsimp only
    rw [Inner.close_eq h]
    rfl
  | dropRx =>
    refine ⟨.unit, x.shut, h.shut, (State.setClosed_flags _).1.trans hx, rfl,
      .inr ⟨none, by simp, fun n tx => ?_⟩⟩
    rw [exec, dropRx]
    dsimp only
    rw [Inner.close_eq h, ok_bind, dropRc_eq h.shut]
    rfl
  | _ => cases hc

/-- A receiver that has finished does not touch the shared state. -/
theorem exec_rx_finished (hc : c.ofSender = false) :
    ∃ o r, r ≠ some ⟨true⟩ ∧ ∀ (x : Inner P T W) n tx,
      exec ⟨x, n, tx, some ⟨false⟩⟩ c = .ok (o, ⟨x, n, tx, r⟩) := by
  cases c with
  | poll cx => exact ⟨.unwound, some ⟨false⟩, by simp, fun x n tx => rfl⟩
  | tryRecv => exact ⟨.tried (.error .closed), some ⟨false⟩, by simp, fun x n tx => rfl⟩
  | close => exact ⟨.unit, some ⟨false⟩, by simp, fun x n tx => rfl⟩
  | dropRx => exact ⟨.unit, none, by simp, fun x n tx => rfl⟩
  | _ => cases hc

/-- What the sender does in a channel that is closed: its slot stays as it is, and it does nothing
or drops its `Rc` at the end. -/
theorem exec_tx_shape (h : x.Sound) (hx : x.state.isClosed = true) (hc : c.ofSender = true) :
    ∃ o y, y.Sound ∧ y.txTask = x.txTask ∧
      ((∀ n rx, exec ⟨x, n, some ⟨true⟩, rx⟩ c = .ok (o, ⟨x, n, some ⟨true⟩, rx⟩)) ∨
        ∀ n rx, exec ⟨x, n, some ⟨true⟩, rx⟩ c = .ok (o, released ⟨y, n, none, rx⟩)) := by
  cases c with
  | pollClosed cx =>
    refine ⟨.closed (.ready ()), x, h, rfl, .inl fun n rx => ?_⟩
    have hpoll := Inner.pollClosed_eq h cx
    rw [if_pos hx] at hpoll
    rw [exec, pollClosed, txInner_eq rfl, ok_bind]
    dsimp only
    rw [hpoll]
    rfl
  | isClosed =>
    refine ⟨.isClosed true, x, h, rfl, .inl fun n rx => ?_⟩
    rw [exec, isClosed, txInner_eq rfl, ok_bind]
    dsimp only
    rw [hx]
    rfl
  | send v =>
    have hset : (x.setValue v).Sound := ⟨h.rx, h.tx⟩
    have hsound : (x.setValue v).completed.consumeValue.2.Sound :=
      ⟨hset.completed.rx, hset.completed.tx⟩
    refine ⟨.sent (.error v), (x.setValue v).completed.consumeValue.2, hsound, rfl,
      .inr fun n rx => ?_⟩
    rw [exec, send, txInner_eq rfl, ok_bind]
    dsimp only
    rw [Inner.complete_eq hset, show (x.setValue v).state.isClosed = true from hx, ok_bind]
    simp only [Bool.not_true, Bool.not_false, if_true]
    rw [show (x.setValue v).completed.consumeValue =
      (some v, (x.setValue v).completed.consumeValue.2) from rfl]
    dsimp only
    rw [dropRc_eq hsound]
    rfl
  | dropTx =>
    refine ⟨.unit, x.completed, h.completed, rfl, .inr fun n rx => ?_⟩
    rw [exec, dropTx]
    dsimp only
    rw [Inner.complete_eq h, ok_bind]
    dsimp only
    rw [dropRc_eq h.completed]
    rfl
  | _ => cases hc

/-- The receiver's side of a complete channel, while its slot `q` is woken. -/
structure KeepsRx (s : System P T W) (q : Task W) : Prop where
  complete : s.inner.state.isComplete = true
  slot : s.inner.rxTask = q
  sound : s.inner.Sound
  /-- The other `Rc` is that of the sender, which is on its way out. -/
  strong : s.rx = some ⟨true⟩ → s.strong = 2

/-- The sender's side of a closed channel, while its slot `q` is woken. -/
structure KeepsTx (s : System P T W) (q : Task W) : Prop where
  slot : s.inner.txTask = q
  sound : s.inner.Sound
  live : s.tx ≠ some ⟨false⟩
  /-- The other `Rc` is that of the receiver. -/
  strong : s.tx = some ⟨true⟩ → s.strong = 2 ∧ s.inner.state.isClosed = true

/-- **The sender's `Rc` may go first**: it makes no difference to a call of the receiver. -/
theorem owesTx_exec {q : Task W} (hs : KeepsRx s q) (hu : released { s with tx := none } = u)
    (hc : c.ofSender = false) (hstep : u.Step (c, o) v) :
    ∃ t, s.exec c = .ok (o, t) ∧ KeepsRx t q ∧ released { t with tx := none } = v := by
  obtain ⟨hallowed, hres⟩ := hstep
  obtain ⟨x, n, tx, rx⟩ := s
  have hrx : u.rx = rx := by
    rw [← hu, released]
    split_ifs <;> rfl
  have hsome : rx.isSome = true := by
    rw [← hrx]
    cases c with
    | poll | tryRecv | close | dropRx => exact hallowed
    | _ => cases hc
  obtain ⟨⟨live⟩, rfl⟩ := Option.isSome_iff_exists.mp hsome
  cases live with
  | true =>
    obtain rfl := hs.strong rfl
    obtain ⟨o', y, hy, hcomplete, hslot, hshape⟩ := exec_rx_shape hs.sound hs.complete hc
    have hslot' : y.rxTask = q := hslot.trans hs.slot
    rw [← hu, show released ⟨x, 2, none, some ⟨true⟩⟩ = ⟨x, 1, none, some ⟨true⟩⟩ from rfl] at hres
    rcases hshape with hshape | ⟨r, hr, hshape⟩
    · rw [hshape] at hres
      obtain ⟨rfl, rfl⟩ := Prod.mk.inj (Except.ok.inj hres)
      exact ⟨_, hshape 2 tx, ⟨hcomplete, hslot', hy, fun _ => rfl⟩, rfl⟩
    · rw [hshape] at hres
      obtain ⟨rfl, rfl⟩ := Prod.mk.inj (Except.ok.inj hres)
      exact ⟨_, hshape 2 tx, ⟨hcomplete, hslot', hy, fun h => absurd h hr⟩, rfl⟩
  | false =>
    obtain ⟨o', r, hr, hshape⟩ := exec_rx_finished (P := P) (T := T) (W := W) hc
    have hu' : u = ⟨u.inner, u.strong, u.tx, some ⟨false⟩⟩ := by rw [← hrx]
    rw [hu', hshape] at hres
    obtain ⟨rfl, rfl⟩ := Prod.mk.inj (Except.ok.inj hres)
    refine ⟨_, hshape x n tx, ⟨hs.complete, hs.slot, hs.sound, fun h => absurd h hr⟩, ?_⟩
    rw [← hu]
    unfold released
    dsimp only
    split_ifs <;> rfl

/-- A call of the sender in a closed channel leaves the slot that is woken. -/
theorem KeepsTx.exec {q : Task W} (hs : KeepsTx s q) (hc : c.ofSender = true)
    (hstep : s.Step (c, o) t) : KeepsTx t q := by
  obtain ⟨hallowed, hres⟩ := hstep
  obtain ⟨x, n, tx, rx⟩ := s
  have hsome : tx.isSome = true := by
    cases c with
    | pollClosed | isClosed | send | dropTx => exact hallowed
    | _ => cases hc
  obtain ⟨⟨live⟩, rfl⟩ := Option.isSome_iff_exists.mp hsome
  cases live with
  | false => exact absurd rfl hs.live
  | true =>
    obtain ⟨rfl, hclosed⟩ := hs.strong rfl
    obtain ⟨o', y, hy, hslot, hshape⟩ := exec_tx_shape hs.sound hclosed hc
    rcases hshape with hshape | hshape
    · rw [hshape] at hres
      obtain ⟨rfl, rfl⟩ := Prod.mk.inj (Except.ok.inj hres)
      exact hs
    · rw [hshape] at hres
      obtain ⟨rfl, rfl⟩ := Prod.mk.inj (Except.ok.inj hres)
      exact ⟨hslot.trans hs.slot, hy, by simp [released], fun h => by simp [released] at h⟩

/-- **The receiver's `Rc` may go first**: it makes no difference to a call of the sender. -/
theorem owesRx_exec {q : Task W} (hs : KeepsTx s q) (hu : released { s with rx := none } = u)
    (hc : c.ofSender = true) (hstep : u.Step (c, o) v) :
    ∃ t, s.exec c = .ok (o, t) ∧ KeepsTx t q ∧ released { t with rx := none } = v := by
  obtain ⟨hallowed, hres⟩ := hstep
  obtain ⟨x, n, tx, rx⟩ := s
  have htx : u.tx = tx := by
    rw [← hu, released]
    split_ifs <;> rfl
  have hsome : tx.isSome = true := by
    rw [← htx]
    cases c with
    | pollClosed | isClosed | send | dropTx => exact hallowed
    | _ => cases hc
  obtain ⟨⟨live⟩, rfl⟩ := Option.isSome_iff_exists.mp hsome
  cases live with
  | false => exact absurd rfl hs.live
  | true =>
    obtain ⟨rfl, hclosed⟩ := hs.strong rfl
    obtain ⟨o', y, hy, hslot, hshape⟩ := exec_tx_shape hs.sound hclosed hc
    rw [← hu, show released ⟨x, 2, some ⟨true⟩, none⟩ = ⟨x, 1, some ⟨true⟩, none⟩ from rfl] at hres
    rcases hshape with hshape | hshape
    · rw [hshape] at hres
      obtain ⟨rfl, rfl⟩ := Prod.mk.inj (Except.ok.inj hres)
      exact ⟨_, hshape 2 rx, ⟨hs.slot, hs.sound, hs.live, hs.strong⟩, rfl⟩
    · rw [hshape] at hres
      obtain ⟨rfl, rfl⟩ := Prod.mk.inj (Except.ok.inj hres)
      refine ⟨_, hshape 2 rx, ⟨hslot.trans hs.slot, hy, ?_, fun h => ?_⟩, rfl⟩
      · simp [released]
      · simp [released] at h

/-! ### Calls that wake at their end -/

omit [Waker W] in
theorem stays_self (q : Task W) : stays q q = .ok () := if_pos ⟨rfl, rfl⟩

/-- **`complete`, with whatever the receiver's waker does**, leads to the same state as the calls of
the waker after the sender has gone. -/
theorem completeWith_spec (k : Script T W) (hx : x.Sound) (hopen : x.state.isClosed = false)
    (hrx : s.rx = some ⟨true⟩ → s.strong = 2)
    (hu : Good (released { s with tx := none, inner := x.completed }) b) :
    ∃ log t v d, completeWith k { s with inner := x } = .ok (true, log, t) ∧
      dropRc { t with tx := none } = .ok v ∧ Good v d ∧ Run Spec.Step b log d ∧
      ∀ e ∈ log, e.1.ofSender = false := by
  have hclosed : x.state.setComplete.isClosed = false := by
    rw [(State.setComplete_flags _).2.2.1]
    exact hopen
  have hcompleted : x.completed =
      { x with state := x.state.setComplete, rxTask := x.rxTask.wake } := by
    simp [Inner.completed, hopen]
  have hflag : x.state.setComplete.isRxTaskSet = x.state.isRxTaskSet :=
    (State.setComplete_flags _).2.1
  cases hset : x.state.isRxTaskSet with
  | false =>
    have hslot := hx.rx
    rw [hset] at hslot
    refine ⟨[], { s with inner := x.completed }, _, b, ?_, dropRc_eq hx.completed, hu, .nil,
      fun e he => absurd he List.not_mem_nil⟩
    simp [completeWith, hclosed, hflag, hset, hcompleted, Task.wake_of_empty hslot]
  | true =>
    have hslot := hx.rx
    rw [hset] at hslot
    obtain ⟨log, v, d, hnest, hrun, hv, -, hlog⟩ := nest_spec (K := fun _ => True) false
      (fun _ _ _ _ _ _ _ _ _ => trivial) k.atWake hu trivial
    have hR : ∀ (t v : System P T W) (c : Action T W),
        KeepsRx t x.rxTask.wake ∧ released { t with tx := none } = v →
        c.ofSender = false → (t.Allowed c ↔ v.Allowed c) ∧ ∀ o v', v.Step (c, o) v' →
          ∃ t', t.exec c = .ok (o, t') ∧ KeepsRx t' x.rxTask.wake ∧
            released { t' with tx := none } = v' := by
      rintro t v c ⟨hkeeps, ht⟩ hc
      refine ⟨?_, fun o v' hstep => owesTx_exec hkeeps ht hc hstep⟩
      have hrx' : v.rx = t.rx := by
        rw [← ht, released]
        split_ifs <;> rfl
      unfold Allowed
      cases c with
      | poll | tryRecv | close | dropRx => rw [hrx']
      | _ => cases hc
    have hkeeps : KeepsRx { s with inner := x.completed } x.rxTask.wake :=
      ⟨(State.setComplete_flags _).1, by rw [hcompleted], hx.completed, hrx⟩
    obtain ⟨t, hnest', hkeeps', ht⟩ := nest_simulates false hR ⟨hkeeps, rfl⟩ hnest
    refine ⟨log, t, v, d, ?_, ?_, hv, hrun, hlog⟩
    · have hstays : stays x.rxTask.wake t.inner.rxTask = .ok () := by
        rw [hkeeps'.slot]
        exact stays_self _
      rw [hcompleted] at hnest'
      simp only [completeWith, hclosed, hflag, hset, Bool.false_eq_true, if_false, if_true]
      rw [Task.wakeByRef_eq hslot, ok_bind, hnest', ok_bind]
      dsimp only
      rw [hstays]
      rfl
    · rw [← ht]
      exact dropRc_eq hkeeps'.sound

omit [Waker W] in
theorem shut_of_open (hc : s.inner.state.isComplete = false) : s.inner.shut =
    { s.inner with state := s.inner.state.setClosed, txTask := s.inner.txTask.wake } := by
  simp [Inner.shut, hc]

/-- `close` when it wakes nobody. -/
theorem shutWith_quiet (k : Script T W) (hx : s.inner.Sound)
    (hquiet : ¬ (s.inner.state.isTxTaskSet = true ∧ s.inner.state.isComplete = false)) :
    shutWith k s = .ok ([], { s with inner := s.inner.shut }) := by
  have hflag : s.inner.state.setClosed.isTxTaskSet = s.inner.state.isTxTaskSet :=
    (State.setClosed_flags _).2.2.2
  have hcomplete : s.inner.state.setClosed.isComplete = s.inner.state.isComplete :=
    (State.setClosed_flags _).1
  have hshut : s.inner.shut = { s.inner with state := s.inner.state.setClosed } := by
    cases hc : s.inner.state.isComplete with
    | true => simp [Inner.shut, hc]
    | false =>
      have hset : s.inner.state.isTxTaskSet = false := by
        by_contra hne
        exact hquiet ⟨Bool.not_eq_false _ ▸ hne, hc⟩
      have hslot := hx.tx
      rw [hset] at hslot
      simp [Inner.shut, hc, Task.wake_of_empty hslot]
  have hno : (s.inner.state.isTxTaskSet && !s.inner.state.isComplete) = false := by
    rw [Bool.eq_false_iff]
    intro hyes
    rw [Bool.and_eq_true, Bool.not_eq_true'] at hyes
    exact hquiet hyes
  simp only [shutWith, hflag, hcomplete, hno, Bool.false_eq_true, if_false, hshut]
  rfl

/-- `close` when it wakes the sender, whose waker makes the calls of `log`. -/
theorem shutWith_wake (k : Script T W) (hx : s.inner.Sound)
    (hwakes : s.inner.state.isTxTaskSet = true ∧ s.inner.state.isComplete = false)
    (hnest : nest true k.atWake { s with inner := s.inner.shut } = .ok (log, t))
    (hslot : t.inner.txTask = s.inner.txTask.wake) : shutWith k s = .ok (log, t) := by
  have hflag : s.inner.state.setClosed.isTxTaskSet = s.inner.state.isTxTaskSet :=
    (State.setClosed_flags _).2.2.2
  have hcomplete : s.inner.state.setClosed.isComplete = s.inner.state.isComplete :=
    (State.setClosed_flags _).1
  have htask := hx.tx
  rw [hwakes.1] at htask
  have hstays : stays s.inner.txTask.wake t.inner.txTask = .ok () := by
    rw [hslot]
    exact stays_self _
  rw [shut_of_open hwakes.2] at hnest
  simp only [shutWith, hflag, hcomplete, hwakes, Bool.not_false, Bool.and_self, if_true]
  rw [Task.wakeByRef_eq htask, ok_bind, hnest, ok_bind]
  dsimp only
  rw [hstays]
  rfl

/-- **`close`, with whatever the sender's waker does**, before the receiver goes. -/
theorem shutWith_leave (k : Script T W) (hx : s.inner.Sound) (hlive : s.tx ≠ some ⟨false⟩)
    (htx : s.tx = some ⟨true⟩ → s.strong = 2)
    (hu : Good (released { s with rx := none, inner := s.inner.shut }) b) :
    ∃ log t v d, shutWith k s = .ok (log, t) ∧ dropRc { t with rx := none } = .ok v ∧ Good v d ∧
      Run Spec.Step b log d ∧ ∀ e ∈ log, e.1.ofSender = true := by
  by_cases hwakes : s.inner.state.isTxTaskSet = true ∧ s.inner.state.isComplete = false
  swap
  · exact ⟨[], _, _, b, shutWith_quiet k hx hwakes, dropRc_eq hx.shut, hu, .nil,
      fun e he => absurd he List.not_mem_nil⟩
  · obtain ⟨log, v, d, hnest, hrun, hv, -, hlog⟩ := nest_spec (K := fun _ => True) true
      (fun _ _ _ _ _ _ _ _ _ => trivial) k.atWake hu trivial
    have hR : ∀ (t v : System P T W) (c : Action T W),
        KeepsTx t s.inner.txTask.wake ∧ released { t with rx := none } = v →
        c.ofSender = true → (t.Allowed c ↔ v.Allowed c) ∧ ∀ o v', v.Step (c, o) v' →
          ∃ t', t.exec c = .ok (o, t') ∧ KeepsTx t' s.inner.txTask.wake ∧
            released { t' with rx := none } = v' := by
      rintro t v c ⟨hkeeps, ht⟩ hc
      refine ⟨?_, fun o v' hstep => owesRx_exec hkeeps ht hc hstep⟩
      have htx' : v.tx = t.tx := by
        rw [← ht, released]
        split_ifs <;> rfl
      unfold Allowed
      cases c with
      | pollClosed | isClosed | send | dropTx => rw [htx']
      | _ => cases hc
    have hkeeps : KeepsTx { s with inner := s.inner.shut } s.inner.txTask.wake :=
      ⟨by rw [shut_of_open hwakes.2], hx.shut, hlive,
        fun h => ⟨htx h, (State.setClosed_flags _).2.2.1⟩⟩
    obtain ⟨t, hnest', hkeeps', ht⟩ := nest_simulates true hR ⟨hkeeps, rfl⟩ hnest
    refine ⟨log, t, v, d, shutWith_wake k hx hwakes hnest' hkeeps'.slot, ?_, hv, hrun, hlog⟩
    rw [← ht]
    exact dropRc_eq hkeeps'.sound

/-- **`close`, with whatever the sender's waker does**, while the receiver stays. -/
theorem shutWith_stay (k : Script T W) (hx : s.inner.Sound) (hlive : s.tx ≠ some ⟨false⟩)
    (htx : s.tx = some ⟨true⟩ → s.strong = 2) (hu : Good { s with inner := s.inner.shut } b) :
    ∃ log t d, shutWith k s = .ok (log, t) ∧ Good t d ∧ Run Spec.Step b log d ∧
      ∀ e ∈ log, e.1.ofSender = true := by
  by_cases hwakes : s.inner.state.isTxTaskSet = true ∧ s.inner.state.isComplete = false
  swap
  · exact ⟨[], _, b, shutWith_quiet k hx hwakes, hu, .nil, fun e he => absurd he List.not_mem_nil⟩
  · obtain ⟨log, t, d, hnest, hrun, hd, hkeeps, hlog⟩ :=
      nest_spec (K := fun t => KeepsTx t s.inner.txTask.wake) true
        (fun t a c o t' _ hc hstep ht => ht.exec hc hstep) k.atWake hu
        ⟨by rw [shut_of_open hwakes.2], hx.shut, hlive,
          fun h => ⟨htx h, (State.setClosed_flags _).2.2.1⟩⟩
    exact ⟨log, t, d, shutWith_wake k hx hwakes hnest hkeeps.slot, hd, hrun, hlog⟩

/-! ### The calls -/

/-- **A call and those made meanwhile**, all of the latter after it or all before it. -/
def Block (a : Spec T) (e : Entry T W) (b : Spec T) : Prop :=
  Run Spec.Step a ((e.call, e.answer) :: e.meanwhile) b ∨
    Run Spec.Step a (e.meanwhile ++ [(e.call, e.answer)]) b

variable {k : Script T W}

omit [Waker W] in
/-- The sender is there with its `Rc`, or not at all. -/
theorem Refines.tx_live (h : Refines s a) : s.tx ≠ some ⟨false⟩ := by
  by_cases ha : a.content = .awaited
  · simp [h.awaited ha]
  · simp [h.gone ha]

omit [Waker W] in
/-- While both ends are there, there are two `Rc`s. -/
theorem Refines.strong_eq_two (h : Refines s a) (htx : s.tx = some ⟨true⟩)
    (hrx : s.rx = some ⟨true⟩) : s.strong = 2 := by
  rw [h.strong, count, if_pos htx, if_pos hrx]

/-- A call during which no code of a waker runs. -/
theorem of_exec (h : Good s a) (hc : s.Allowed c)
    (hres : ∀ o t, s.exec c = .ok (o, t) → s.execWith k c = .ok (o, [], t)) :
    ∃ o log t b, s.execWith k c = .ok (o, log, t) ∧ Good t b ∧ Block a ⟨c, o, log⟩ b ∧
      ∀ e ∈ log, e.1.ofSender = !c.ofSender := by
  obtain ⟨o, t, hexec, -⟩ := exec_spec h.refines hc
  obtain ⟨b, hspec, ht⟩ := h.step ⟨hc, hexec⟩
  exact ⟨o, [], t, b, hres o t hexec, ht, .inl (.single hspec),
    fun e he => absurd he List.not_mem_nil⟩

/-- **Sending**: what the receiver's waker does comes after it. -/
theorem sendWith_spec (h : Good s a) (hc : s.tx.isSome = true) (v : T) :
    ∃ o log t b, s.execWith k (.send v) = .ok (o, log, t) ∧ Good t b ∧
      Block a ⟨.send v, o, log⟩ b ∧ ∀ e ∈ log, e.1.ofSender = false := by
  obtain ⟨-, hsome, hsound, -⟩ := h.refines.of_tx hc
  have hset : (s.inner.setValue v).Sound := ⟨hsound.rx, hsound.tx⟩
  have hflag : (s.inner.setValue v).state.setComplete.isClosed = s.inner.state.isClosed :=
    (State.setComplete_flags _).2.2.1
  cases hclosed : s.inner.state.isClosed with
  | true =>
    apply of_exec (c := .send v) h hc
    intro o t hexec
    have hcompleted : (s.inner.setValue v).completed =
        { s.inner.setValue v with state := (s.inner.setValue v).state.setComplete } := by
      simp [Inner.completed, show (s.inner.setValue v).state.isClosed = true from hclosed]
    obtain ⟨⟨r, u⟩, hu, hexec⟩ := bind_eq_ok.mp hexec
    obtain ⟨rfl, rfl⟩ := Prod.mk.inj (Except.ok.inj hexec)
    rw [send, txInner_eq hsome, ok_bind] at hu
    dsimp only at hu
    rw [Inner.complete_eq hset, show (s.inner.setValue v).state.isClosed = true from hclosed,
      hcompleted, ok_bind] at hu
    simp only [Bool.not_true, Bool.not_false, if_true] at hu
    rw [execWith, sendWith, txInner_eq hsome, ok_bind]
    simp only [completeWith, hflag, hclosed, if_true]
    rw [pure_eq_ok, ok_bind]
    simp only [Bool.not_false, if_true]
    generalize Inner.consumeValue _ = p at hu ⊢
    obtain ⟨_ | w, y⟩ := p
    · cases hu
    · obtain ⟨z, hz, hu⟩ := bind_eq_ok.mp hu
      obtain ⟨rfl, rfl⟩ := Prod.mk.inj (Except.ok.inj hu)
      dsimp only
      rw [hz]
      rfl
  | false =>
    have hstep : s.Step (.send v, .sent (.ok ()))
        (released { s with tx := none, inner := (s.inner.setValue v).completed }) := by
      refine ⟨hc, ?_⟩
      rw [exec, send, txInner_eq hsome, ok_bind]
      dsimp only
      rw [Inner.complete_eq hset, show (s.inner.setValue v).state.isClosed = false from hclosed,
        ok_bind]
      simp only [Bool.not_false, Bool.not_true, Bool.false_eq_true, if_false]
      rw [dropRc_eq hset.completed]
      rfl
    obtain ⟨b, hspec, hb⟩ := h.step hstep
    obtain ⟨log, t, u, d, hcomplete, hdrop, hu, hrun, hlog⟩ :=
      completeWith_spec k hset hclosed (h.refines.strong_eq_two hsome) hb
    refine ⟨.sent (.ok ()), log, u, d, ?_, hu, .inl (.cons hspec hrun), hlog⟩
    rw [execWith, sendWith, txInner_eq hsome, ok_bind]
    dsimp only
    rw [hcomplete, ok_bind]
    simp only [Bool.not_true, Bool.false_eq_true, if_false]
    rw [hdrop]
    rfl

/-- **Dropping the sender**: what the receiver's waker does comes after it. -/
theorem dropTxWith_spec (h : Good s a) (hc : s.tx.isSome = true) :
    ∃ o log t b, s.execWith k .dropTx = .ok (o, log, t) ∧ Good t b ∧
      Block a ⟨.dropTx, o, log⟩ b ∧ ∀ e ∈ log, e.1.ofSender = false := by
  obtain ⟨-, hsome, hsound, -⟩ := h.refines.of_tx hc
  have hflag : s.inner.state.setComplete.isClosed = s.inner.state.isClosed :=
    (State.setComplete_flags _).2.2.1
  have hstep : s.Step (.dropTx, .unit)
      (released { s with tx := none, inner := s.inner.completed }) := by
    refine ⟨hc, ?_⟩
    rw [exec, dropTx, hsome]
    dsimp only
    rw [Inner.complete_eq hsound, ok_bind, dropRc_eq hsound.completed]
    rfl
  cases hclosed : s.inner.state.isClosed with
  | true =>
    apply of_exec (c := .dropTx) h hc
    intro o t hexec
    obtain ⟨rfl, rfl⟩ := Prod.mk.inj (Except.ok.inj (hstep.2.symm.trans hexec))
    have hcompleted : s.inner.completed = { s.inner with state := s.inner.state.setComplete } := by
      simp [Inner.completed, hclosed]
    have hdrop :=
      dropRc_eq (s := { s with tx := none, inner := s.inner.completed }) hsound.completed
    rw [hcompleted] at hdrop ⊢
    rw [execWith, dropTxWith, hsome]
    simp only [completeWith, hflag, hclosed, if_true]
    rw [pure_eq_ok, ok_bind]
    dsimp only
    rw [hdrop]
    rfl
  | false =>
    obtain ⟨b, hspec, hb⟩ := h.step hstep
    obtain ⟨log, t, u, d, hcomplete, hdrop, hu, hrun, hlog⟩ :=
      completeWith_spec k hsound hclosed (h.refines.strong_eq_two hsome) hb
    refine ⟨.unit, log, u, d, ?_, hu, .inl (.cons hspec hrun), hlog⟩
    rw [execWith, dropTxWith, hsome]
    dsimp only
    rw [hcomplete, ok_bind]
    dsimp only
    rw [hdrop]
    rfl

/-- **Closing**: what the sender's waker does comes after it. -/
theorem closeWith_spec (h : Good s a) (hc : s.rx.isSome = true) :
    ∃ o log t b, s.execWith k .close = .ok (o, log, t) ∧ Good t b ∧
      Block a ⟨.close, o, log⟩ b ∧ ∀ e ∈ log, e.1.ofSender = true := by
  obtain ⟨⟨live⟩, hsome⟩ := Option.isSome_iff_exists.mp hc
  cases live with
  | false =>
    apply of_exec (c := .close) h hc
    intro o t hexec
    rw [exec, close, hsome] at hexec
    obtain ⟨rfl, rfl⟩ := Prod.mk.inj (Except.ok.inj hexec)
    rw [execWith, closeWith, hsome]
    rfl
  | true =>
    have hsound := h.refines.sound_of_rx hsome
    have hstep : s.Step (.close, .unit) { s with inner := s.inner.shut } := by
      refine ⟨hc, ?_⟩
      rw [exec, close, hsome]
      dsimp only
      rw [Inner.close_eq hsound, ← hsome]
      rfl
    obtain ⟨b, hspec, hb⟩ := h.step hstep
    obtain ⟨log, t, d, hshut, ht, hrun, hlog⟩ := shutWith_stay k hsound h.refines.tx_live
      (fun htx => h.refines.strong_eq_two htx hsome) hb
    refine ⟨.unit, log, t, d, ?_, ht, .inl (.cons hspec hrun), hlog⟩
    rw [execWith, closeWith, hsome]
    dsimp only
    rw [hshut]
    rfl

/-- **Dropping the receiver**: what the sender's waker does comes after it. -/
theorem dropRxWith_spec (h : Good s a) (hc : s.rx.isSome = true) :
    ∃ o log t b, s.execWith k .dropRx = .ok (o, log, t) ∧ Good t b ∧
      Block a ⟨.dropRx, o, log⟩ b ∧ ∀ e ∈ log, e.1.ofSender = true := by
  obtain ⟨⟨live⟩, hsome⟩ := Option.isSome_iff_exists.mp hc
  cases live with
  | false =>
    apply of_exec (c := .dropRx) h hc
    intro o t hexec
    rw [exec, dropRx, hsome] at hexec
    obtain ⟨rfl, rfl⟩ := Prod.mk.inj (Except.ok.inj hexec)
    rw [execWith, dropRxWith, hsome]
    rfl
  | true =>
    have hsound := h.refines.sound_of_rx hsome
    have hstep : s.Step (.dropRx, .unit)
        (released { s with rx := none, inner := s.inner.shut }) := by
      refine ⟨hc, ?_⟩
      rw [exec, dropRx, hsome]
      dsimp only
      rw [Inner.close_eq hsound, ok_bind, dropRc_eq hsound.shut]
      rfl
    obtain ⟨b, hspec, hb⟩ := h.step hstep
    obtain ⟨log, t, u, d, hshut, hdrop, hu, hrun, hlog⟩ := shutWith_leave k hsound
      h.refines.tx_live (fun htx => h.refines.strong_eq_two htx hsome) hb
    refine ⟨.unit, log, u, d, ?_, hu, .inl (.cons hspec hrun), hlog⟩
    rw [execWith, dropRxWith, hsome]
    dsimp only
    rw [hshut, ok_bind]
    dsimp only
    rw [hdrop]
    rfl

/-! ### The polls

The code of a waker runs while the flag of the slot is not set.  So the other end has nothing to
wake, and the poll looks at the state again. -/

/-- The end of `poll`. -/
def answered : Poll (Except RecvError T) × Log T W × System P T W →
    Except Fault (Answer T × Log T W × System P T W)
  | (.ready (.ok value), log, s) => do pure (.received (.ready (.ok value)), log, ← s.finish)
  | (r, log, s) => .ok (.received r, log, s)

theorem pollWith_eq (hrx : s.rx = some ⟨true⟩) (cx : W) :
    s.pollWith k cx = s.pollRecvWith k cx >>= answered := by
  rw [pollWith, hrx]
  rfl

/-- In a complete channel a poll ends like any other. -/
theorem answered_recvValue {cx : W} (hx : s.inner.Sound) (hrx : s.rx = some ⟨true⟩)
    (hcomplete : s.inner.state.isComplete = true) (hexec : s.exec (.poll cx) = .ok (o, t)) :
    answered (s.recvValue log) = .ok (o, log, t) := by
  have hpoll := Inner.pollRecv_eq hx cx
  rw [if_pos hcomplete, Inner.recvValue] at hpoll
  rw [recvValue, Inner.recvValue]
  cases hv : s.inner.value with
  | some v =>
    have hconsume : s.inner.consumeValue = (some v, s.inner.consumeValue.2) := Prod.ext hv rfl
    have hfinish : finish { s with inner := s.inner.consumeValue.2 } =
        .ok (released { s with inner := s.inner.consumeValue.2, rx := some ⟨false⟩ }) :=
      dropRc_eq ⟨hx.rx, hx.tx⟩
    rw [hconsume] at hpoll ⊢
    rw [exec, poll_eq_value hrx hpoll hfinish] at hexec
    obtain ⟨rfl, rfl⟩ := Prod.mk.inj (Except.ok.inj hexec)
    dsimp only [answered]
    rw [hfinish]
    rfl
  | none =>
    have hconsume : s.inner.consumeValue = (none, s.inner.consumeValue.2) := Prod.ext hv rfl
    rw [hconsume] at hpoll ⊢
    rw [exec, poll_eq hrx hpoll (by simp)] at hexec
    obtain ⟨rfl, rfl⟩ := Prod.mk.inj (Except.ok.inj hexec)
    rfl

/-- What the sender does leaves the receiver, and a slot without its flag. -/
theorem rx_unset_of_step (h : Good s a) (hc : c.ofSender = true) (hstep : Step s (c, o) t)
    (hs : s.rx = some ⟨true⟩ ∧ s.inner.state.isRxTaskSet = false) :
    t.rx = some ⟨true⟩ ∧ t.inner.state.isRxTaskSet = false := by
  have hpolls : c.pollsRx = false := by cases c <;> first | rfl | cases hc
  have hrx := (rx_exec hc hstep.2).trans hs.1
  obtain ⟨b, -, ht⟩ := h.step hstep
  have hslots := (step_touched h.refines hstep).slots
  rw [if_neg fun hzero => ht.refines.strong_of_rx hrx hzero.1] at hslots
  refine ⟨hrx, ?_⟩
  rw [hslots.state, (touched_rx hpolls o).1]
  exact hs.2

/-- What the receiver does leaves the sender, and a slot without its flag. -/
theorem tx_unset_of_step (h : Good s a) (hc : c.ofSender = false) (hstep : Step s (c, o) t)
    (hs : s.tx = some ⟨true⟩ ∧ s.inner.state.isTxTaskSet = false) :
    t.tx = some ⟨true⟩ ∧ t.inner.state.isTxTaskSet = false := by
  have hpolls : c.pollsTx = false := by cases c <;> first | rfl | cases hc
  have htx := (tx_exec hc hstep.2).trans hs.1
  obtain ⟨b, -, ht⟩ := h.step hstep
  have hslots := (step_touched h.refines hstep).slots
  rw [if_neg fun hzero => ht.refines.strong_of_tx (by rw [htx]; rfl) hzero.1] at hslots
  refine ⟨htx, ?_⟩
  rw [hslots.state, (touched_tx hpolls o).1]
  exact hs.2

omit [Waker W] in
/-- The calls of the sender do not hang up. -/
theorem hungUp_of_ofSender (hlog : ∀ e ∈ log, e.1.ofSender = true) : hungUp log = false := by
  rw [hungUp, List.any_eq_false]
  rintro ⟨c, o⟩ he hhangs
  have hc : c.ofSender = true := hlog _ he
  cases c with
  | close | dropRx => cases hc
  | _ => cases hhangs

/-- **The rest of a poll of the receiver**, from an empty slot on: what the sender does while the
waker is cloned comes before it. -/
theorem awaitRx_spec (k : Script T W) (cx : W) (h : Good s a) (hopen : a.closed = false)
    (hs : s.rx = some ⟨true⟩ ∧ s.inner.state.isRxTaskSet = false) {state : State P}
    (hstate : state.isRxTaskSet = false) (before : Log T W) :
    ∃ o log t b d, s.awaitRx k cx state before >>= answered = .ok (o, before ++ log, t) ∧
      Run Spec.Step a log b ∧ Spec.Step b (.poll cx, o) d ∧ Good t d ∧
      ∀ e ∈ log, e.1.ofSender = true := by
  obtain ⟨log, u, b, hnest, hrun, hu, ⟨hrx, hunset⟩, hlog⟩ :=
    nest_spec true (fun s a c o t h hc hstep => rx_unset_of_step h hc hstep) k.atClone h hs
  have hsound := hu.refines.sound_of_rx hrx
  have hslot := hsound.rx
  rw [hunset] at hslot
  obtain ⟨y, hy⟩ : ∃ y : Inner P T W, y =
      { u.inner with state := u.inner.state.setRxTask, rxTask := u.inner.rxTask.setTask cx } :=
    ⟨_, rfl⟩
  have hysound : y.Sound := by
    rw [hy]
    constructor
    · rw [(State.setRxTask_flags _).2.1]
      exact hslot.setTask cx
    · rw [(State.setRxTask_flags _).2.2.2]
      exact hsound.tx
  have hcomplete : y.state.isComplete = u.inner.state.isComplete := by
    rw [hy]
    exact (State.setRxTask_flags _).1
  have hclosed : y.state.isClosed = u.inner.state.isClosed := by
    rw [hy]
    exact (State.setRxTask_flags _).2.2.1
  have hgood : Good { u with inner := y } b :=
    ⟨hu.refines.of_inner hysound hcomplete hclosed (by rw [hy]) (by rw [hy]),
      fun hzero => absurd hzero (hu.refines.strong_of_rx hrx)⟩
  have hawait : s.awaitRx k cx state before = .ok (if y.state.isComplete then
      recvValue { u with inner := y } (before ++ log) else
      (.pending, before ++ log, { u with inner := y })) := by
    unfold awaitRx
    rw [hstate, if_pos (by rfl), hnest, ok_bind, hy]
    dsimp only
    split_ifs <;> rfl
  rw [hawait, ok_bind]
  cases hc : y.state.isComplete with
  | true =>
    have hallowed : Allowed { u with inner := y } (.poll cx : Action T W) := by
      show u.rx.isSome = true
      rw [hrx]
      rfl
    obtain ⟨o, t, hexec, -⟩ := exec_spec hgood.refines hallowed
    obtain ⟨d, hspec, ht⟩ := hgood.step ⟨hallowed, hexec⟩
    exact ⟨o, log, t, b, d, answered_recvValue hysound hrx hc hexec, hrun, hspec, ht, hlog⟩
  | false =>
    -- the sender is there still, and the receiver has not closed the channel
    have hawaited : b.content = .awaited := by
      by_contra hne
      have htrue := hgood.refines.isComplete_eq.mpr hne
      rw [show ({ u with inner := y } : System P T W).inner = y from rfl, hc] at htrue
      cases htrue
    have hb : b.closed = false := by
      rw [Spec.closed_of_run hrun, hopen, hungUp_of_ofSender hlog]
      rfl
    refine ⟨.received .pending, log, _, b, b, rfl, hrun, ⟨?_, ?_, ?_⟩, hgood, hlog⟩
    · show b.receiver = true
      rw [← hu.refines.receiver, hrx]
      rfl
    · simp [Spec.Accepts, hawaited, hb]
    · rw [Spec.next, Spec.take_of_value (by rw [hawaited]; rfl)]

/-- **A poll of the receiver**: what the sender does meanwhile comes before it. -/
theorem pollWith_spec (h : Good s a) (hc : s.rx.isSome = true) (cx : W) :
    ∃ o log t b, s.execWith k (.poll cx) = .ok (o, log, t) ∧ Good t b ∧
      Block a ⟨.poll cx, o, log⟩ b ∧ ∀ e ∈ log, e.1.ofSender = true := by
  obtain ⟨⟨live⟩, hrx⟩ := Option.isSome_iff_exists.mp hc
  cases live with
  | false =>
    apply of_exec (c := .poll cx) h hc
    intro o t hexec
    rw [exec, poll, hrx] at hexec
    obtain ⟨rfl, rfl⟩ := Prod.mk.inj (Except.ok.inj hexec)
    rw [execWith, pollWith, hrx]
  | true =>
    have hsound := h.refines.sound_of_rx hrx
    have hpoll := Inner.pollRecv_eq hsound cx
    have hres : s.execWith k (.poll cx) = s.pollRecvWith k cx >>= answered := pollWith_eq hrx cx
    by_cases hcomplete : s.inner.state.isComplete = true
    · apply of_exec (k := k) (c := .poll cx) h hc
      intro o t hexec
      rw [hres, pollRecvWith]
      simp only [hcomplete, if_true]
      exact answered_recvValue hsound hrx hcomplete hexec
    rw [if_neg hcomplete] at hpoll
    by_cases hclosed : s.inner.state.isClosed = true
    · apply of_exec (k := k) (c := .poll cx) h hc
      intro o t hexec
      rw [if_pos hclosed] at hpoll
      rw [exec, poll_eq hrx hpoll (by simp)] at hexec
      obtain ⟨rfl, rfl⟩ := Prod.mk.inj (Except.ok.inj hexec)
      rw [hres, pollRecvWith]
      simp only [hcomplete, hclosed, if_true]
      rfl
    rw [if_neg hclosed] at hpoll
    have hopen : a.closed = false := by
      have hawaited : a.content = .awaited := by
        by_contra hne
        exact hcomplete (h.refines.isComplete_eq.mpr hne)
      rw [← h.refines.closed hawaited]
      exact Bool.eq_false_iff.mpr hclosed
    have hslot := hsound.rx
    cases hset : s.inner.state.isRxTaskSet with
    | false =>
      obtain ⟨o, log, t, b, d, hawait, hrun, hspec, ht, hlog⟩ :=
        awaitRx_spec k cx h hopen ⟨hrx, hset⟩ hset []
      refine ⟨o, log, t, d, ?_, ht, .inr (hrun.snoc hspec), hlog⟩
      rw [hres, pollRecvWith]
      simp only [hcomplete, hclosed, hset, Bool.false_eq_true, if_false]
      exact hawait
    | true =>
      rw [hset] at hslot
      obtain ⟨w, hw⟩ := hslot.exists_waker
      have hwill : s.inner.rxTask.willWake cx = .ok (Waker.willWake w cx) := by
        rw [Task.willWake, Task.withTask, hw]
        rfl
      by_cases hsame : Waker.willWake w cx = true
      · apply of_exec (k := k) (c := .poll cx) h hc
        intro o t hexec
        rw [exec, poll_eq hrx hpoll (by simp)] at hexec
        obtain ⟨rfl, rfl⟩ := Prod.mk.inj (Except.ok.inj hexec)
        have hregister : s.inner.registerRx cx = s.inner := by
          rw [Inner.registerRx, State.setRxTask_of_set hset, Task.register, hw]
          dsimp only
          rw [if_pos hsame]
        rw [hregister, hres, pollRecvWith]
        simp only [hcomplete, hclosed, hset, if_true]
        rw [hwill, ok_bind, hsame]
        simp only [Bool.not_true, Bool.false_eq_true, if_false]
        rw [awaitRx, hset]
        rfl
      · have hflags := State.unsetRxTask_flags (s := s.inner.state)
        have hframe := State.unsetRxTask_frame s.inner.state
        obtain ⟨y, hy⟩ : ∃ y : Inner P T W, y =
          { s.inner with state := s.inner.state.unsetRxTask, rxTask := s.inner.rxTask.clear } :=
            ⟨_, rfl⟩
        have hysound : y.Sound := by
          rw [hy]
          constructor
          · rw [hflags.2]
            exact hslot.clear
          · rw [hframe.2]
            exact hsound.tx
        have hgood : Good { s with inner := y } a :=
          ⟨h.refines.of_inner hysound (by rw [hy, hflags.1]) (by rw [hy, hframe.1])
            (by rw [hy]) (by rw [hy]), fun hzero => absurd hzero (h.refines.strong_of_rx hrx)⟩
        obtain ⟨log, u, b, hnest, hrun, hu, hs, hlog⟩ :=
          nest_spec true (fun s a c o t h hc hstep => rx_unset_of_step h hc hstep) k.atDrop hgood
            ⟨hrx, by rw [hy]; exact hflags.2⟩
        have hb : b.closed = false := by
          rw [Spec.closed_of_run hrun, hopen, hungUp_of_ofSender hlog]
          rfl
        obtain ⟨o, log', t, b', d, hawait, hrun', hspec, ht, hlog'⟩ :=
          awaitRx_spec k cx hu hb hs hflags.2 log
        refine ⟨o, log ++ log', t, d, ?_, ht, .inr ((hrun.trans hrun').snoc hspec), fun e he => ?_⟩
        · rw [hy] at hnest
          rw [hres, pollRecvWith]
          simp only [hcomplete, hclosed, hset, if_true]
          rw [hwill, ok_bind, Bool.eq_false_iff.mpr hsame]
          simp only [Bool.not_false, if_true, hflags.1, hcomplete]
          rw [Task.dropTask_eq hslot, ok_bind, hnest]
          exact hawait
        · rcases List.mem_append.mp he with he | he
          · exact hlog e he
          · exact hlog' e he

/-- **The rest of a poll of the sender**, from an empty slot on: what the receiver does while the
waker is cloned comes before it. -/
theorem awaitTx_spec (k : Script T W) (cx : W) (h : Good s a)
    (hs : s.tx = some ⟨true⟩ ∧ s.inner.state.isTxTaskSet = false) {state : State P}
    (hstate : state.isTxTaskSet = false) (before : Log T W) :
    ∃ r log t b, s.awaitTx k cx state before = .ok (r, before ++ log, t) ∧ Run Spec.Step a log b ∧
      Spec.Step b ((.pollClosed cx : Action T W), .closed r) b ∧ Good t b ∧
      ∀ e ∈ log, e.1.ofSender = false := by
  obtain ⟨log, u, b, hnest, hrun, hu, ⟨htx, hunset⟩, hlog⟩ :=
    nest_spec false (fun s a c o t h hc hstep => tx_unset_of_step h hc hstep) k.atClone h hs
  obtain ⟨hawaited, -, hsound, -, hclosed, -⟩ := hu.refines.of_tx (by rw [htx]; rfl)
  have hslot := hsound.tx
  rw [hunset] at hslot
  have hflags := State.setTxTask_flags u.inner.state
  obtain ⟨y, hy⟩ : ∃ y : Inner P T W, y =
      { u.inner with state := u.inner.state.setTxTask, txTask := u.inner.txTask.setTask cx } :=
    ⟨_, rfl⟩
  have hysound : y.Sound := by
    rw [hy]
    constructor
    · rw [hflags.2.1]
      exact hsound.rx
    · rw [hflags.2.2.2]
      exact hslot.setTask cx
  have hgood : Good { u with inner := y } b :=
    ⟨hu.refines.of_inner hysound (by rw [hy]; exact hflags.1) (by rw [hy]; exact hflags.2.2.1)
      (by rw [hy]) (by rw [hy]),
      fun hzero => absurd hzero (hu.refines.strong_of_tx (by rw [htx]; rfl))⟩
  refine ⟨if b.closed then .ready () else .pending, log, _, b, ?_, hrun, ⟨hawaited, rfl, rfl⟩,
    hgood, hlog⟩
  unfold awaitTx
  rw [hstate, if_pos (by rfl), hnest, ok_bind, hy, ← hclosed, ← hflags.2.2.1]
  dsimp only
  split_ifs <;> rfl

/-- **A poll of the sender**: what the receiver does meanwhile comes before it. -/
theorem pollClosedWith_spec (h : Good s a) (hc : s.tx.isSome = true) (cx : W) :
    ∃ o log t b, s.execWith k (.pollClosed cx) = .ok (o, log, t) ∧ Good t b ∧
      Block a ⟨.pollClosed cx, o, log⟩ b ∧ ∀ e ∈ log, e.1.ofSender = false := by
  obtain ⟨hawaited, htx, hsound, -, hclosed, -⟩ := h.refines.of_tx hc
  have hpoll := Inner.pollClosed_eq hsound cx
  have hres : s.execWith k (.pollClosed cx) =
      s.pollClosedWith k cx >>= fun r => .ok (.closed r.1, r.2.1, r.2.2) := rfl
  have hexec : s.exec (.pollClosed cx) = .ok
      (if s.inner.state.isClosed then (.closed (.ready ()), s)
        else (.closed .pending, { s with inner := s.inner.registerTx cx })) := by
    rw [exec, pollClosed, txInner_eq htx, ok_bind, hpoll]
    split_ifs <;> rfl
  by_cases hc' : s.inner.state.isClosed = true
  · apply of_exec (k := k) (c := .pollClosed cx) h hc
    intro o t hexec'
    rw [hexec, if_pos hc'] at hexec'
    obtain ⟨rfl, rfl⟩ := Prod.mk.inj (Except.ok.inj hexec')
    rw [hres, pollClosedWith, txInner_eq htx, ok_bind]
    simp only [hc', if_true]
    rfl
  have hslot := hsound.tx
  cases hset : s.inner.state.isTxTaskSet with
  | false =>
    obtain ⟨r, log, t, b, hawait, hrun, hspec, ht, hlog⟩ :=
      awaitTx_spec k cx h ⟨htx, hset⟩ hset []
    refine ⟨.closed r, log, t, b, ?_, ht, .inr (hrun.snoc hspec), hlog⟩
    rw [hres, pollClosedWith, txInner_eq htx, ok_bind]
    simp only [hc', hset, Bool.false_eq_true, if_false]
    rw [hawait]
    rfl
  | true =>
    rw [hset] at hslot
    obtain ⟨w, hw⟩ := hslot.exists_waker
    have hwill : s.inner.txTask.willWake cx = .ok (Waker.willWake w cx) := by
      rw [Task.willWake, Task.withTask, hw]
      rfl
    by_cases hsame : Waker.willWake w cx = true
    · apply of_exec (k := k) (c := .pollClosed cx) h hc
      intro o t hexec'
      rw [hexec, if_neg hc'] at hexec'
      obtain ⟨rfl, rfl⟩ := Prod.mk.inj (Except.ok.inj hexec')
      have hregister : s.inner.registerTx cx = s.inner := by
        rw [Inner.registerTx, State.setTxTask_of_set hset, Task.register, hw]
        dsimp only
        rw [if_pos hsame]
      rw [hregister, hres, pollClosedWith, txInner_eq htx, ok_bind]
      simp only [hc', hset, if_true]
      rw [hwill, ok_bind, hsame]
      simp only [Bool.not_true, Bool.false_eq_true, if_false]
      rw [awaitTx, hset]
      rfl
    · have hflags := State.unsetTxTask_flags (s := s.inner.state)
      have hframe := State.unsetTxTask_frame s.inner.state
      obtain ⟨y, hy⟩ : ∃ y : Inner P T W, y =
        { s.inner with state := s.inner.state.unsetTxTask, txTask := s.inner.txTask.clear } :=
          ⟨_, rfl⟩
      have hysound : y.Sound := by
        rw [hy]
        constructor
        · rw [hframe.2]
          exact hsound.rx
        · rw [hflags.2]
          exact hslot.clear
      have hgood : Good { s with inner := y } a :=
        ⟨h.refines.of_inner hysound (by rw [hy, hframe.1]) (by rw [hy, hflags.1]) (by rw [hy])
          (by rw [hy]), fun hzero => absurd hzero (h.refines.strong_of_tx hc)⟩
      obtain ⟨log, u, b, hnest, hrun, hu, hs, hlog⟩ :=
        nest_spec false (fun s a c o t h hc hstep => tx_unset_of_step h hc hstep) k.atDrop hgood
          ⟨htx, by rw [hy]; exact hflags.2⟩
      obtain ⟨r, log', t, b', hawait, hrun', hspec, ht, hlog'⟩ :=
        awaitTx_spec k cx hu hs hflags.2 log
      refine ⟨.closed r, log ++ log', t, b', ?_, ht, .inr ((hrun.trans hrun').snoc hspec),
        fun e he => ?_⟩
      · rw [hy] at hnest
        rw [hres, pollClosedWith, txInner_eq htx, ok_bind]
        simp only [hc', hset, if_true]
        rw [hwill, ok_bind, Bool.eq_false_iff.mpr hsame]
        simp only [Bool.not_false, if_true, hflags.1, hc']
        rw [Task.dropTask_eq hslot, ok_bind, hnest, ok_bind]
        dsimp only
        rw [hawait]
        rfl
      · rcases List.mem_append.mp he with he | he
        · exact hlog e he
        · exact hlog' e he

/-- **Every call**, whatever the code of the wakers does meanwhile. -/
theorem execWith_spec (k : Script T W) (h : Good s a) (hc : s.Allowed c) :
    ∃ o log t b, s.execWith k c = .ok (o, log, t) ∧ Good t b ∧ Block a ⟨c, o, log⟩ b ∧
      ∀ e ∈ log, e.1.ofSender = !c.ofSender := by
  cases c with
  | pollClosed cx => exact pollClosedWith_spec h hc cx
  | send v => exact sendWith_spec h hc v
  | dropTx => exact dropTxWith_spec h hc
  | poll cx => exact pollWith_spec h hc cx
  | close => exact closeWith_spec h hc
  | dropRx => exact dropRxWith_spec h hc
  | isClosed | tryRecv =>
    apply of_exec h hc
    intro o t hexec
    simp only [execWith]
    rw [hexec]
    rfl

/-! ### Whole runs -/

/-- `es` lists the calls of `fs` with those made meanwhile, call by call: these come all after the
call that they were made in, or all before it. -/
inductive Linearizes : List (Entry T W) → List (Action T W × Answer T) → Prop
  | nil : Linearizes [] []
  | after {fs es} (e : Entry T W) (h : Linearizes fs es) :
    Linearizes (fs ++ [e]) (es ++ (e.call, e.answer) :: e.meanwhile)
  | before {fs es} (e : Entry T W) (h : Linearizes fs es) :
    Linearizes (fs ++ [e]) (es ++ (e.meanwhile ++ [(e.call, e.answer)]))

theorem stepWith_spec {e : Entry T W} (h : Good s a) (hstep : StepWith s e t) :
    ∃ b, Block a e b ∧ Good t b := by
  obtain ⟨hallowed, k, hres⟩ := hstep
  obtain ⟨o, log, t', b, hres', ht, hblock, -⟩ := execWith_spec k h hallowed
  rw [hres] at hres'
  obtain ⟨ho, hrest⟩ := Prod.mk.inj (Except.ok.inj hres')
  obtain ⟨hlog, rfl⟩ := Prod.mk.inj hrest
  obtain ⟨c, o', log'⟩ := e
  obtain rfl := ho
  obtain rfl := hlog
  exact ⟨b, hblock, ht⟩

omit [Waker W] in
theorem good_channel : Good (channel P T W) Spec.new :=
  ⟨channel_refines, fun hzero => absurd hzero two_ne_zero⟩

theorem runWith_spec {fs : List (Entry T W)} (hrun : Run StepWith (channel P T W) fs s) :
    ∃ es a, Linearizes fs es ∧ Run Spec.Step Spec.new es a ∧ Good s a := by
  induction hrun with
  | nil => exact ⟨[], _, .nil, .nil, good_channel⟩
  | snoc _ hstep ih =>
    obtain ⟨es, a, hlin, hspec, hs⟩ := ih
    obtain ⟨b, hblock | hblock, ht⟩ := stepWith_spec hs hstep
    · exact ⟨_, b, .after _ hlin, hspec.trans hblock, ht⟩
    · exact ⟨_, b, .before _ hlin, hspec.trans hblock, ht⟩

end System

/-- What holds after the calls `fs`, in which the code of wakers made calls of its own. -/
structure Linearizable [Waker W] (fs : List (System.Entry T W)) (s : System P T W) : Prop where
  /-- Every allowed call returns, whatever the code of the wakers does. -/
  returns : ∀ k c, s.Allowed c → ∃ o log t, s.execWith k c = .ok (o, log, t)
  slots : System.SlotsFollow s
  /-- The calls are, with their answers, those of a run of the machine: each call with the ones made
  during it in one piece. -/
  linear : ∃ es a, System.Linearizes fs es ∧ Run Spec.Step Spec.new es a ∧ System.Refines s a ∧
    accepted es = received es ++ s.inner.dropped ++ s.inner.value.toList

/-- **The oneshot channel is linearizable**, also when wakers use it from within its calls. -/
theorem reentrant_linearizable [Waker W] {fs : List (System.Entry T W)} {s : System P T W}
    (hrun : Run System.StepWith (channel P T W) fs s) : Linearizable fs s := by
  obtain ⟨es, a, hlin, hspec, h⟩ := System.runWith_spec hrun
  refine ⟨fun k c hc => ?_, h.refines.slotsFollow h.emptied, es, a, hlin, hspec, h.refines, ?_⟩
  · obtain ⟨o, log, t, b, hres, -⟩ := System.execWith_spec k h hc
    exact ⟨o, log, t, hres⟩
  · rw [h.refines.dropped, h.refines.value]
    exact (Spec.history hspec).accepted_eq

/-- A poll drops the receiver's old waker, whose code sends a value: the poll returns it. -/
theorem reentrant_linearizable_dropped :
    ∃ (fs : List (System.Entry ℕ ℕ)) (s : System .w64 ℕ ℕ),
      Run System.StepWith (channel .w64 ℕ ℕ) fs s ∧
        fs.map System.Entry.answer = [.received .pending, .received (.ready (.ok 7))] ∧
        Linearizable fs s := by
  have hcheck : (replay (fun s (a : Script ℕ ℕ × Action ℕ ℕ) =>
      (attempt System.Allowed (System.execWith a.1) s a.2).map fun r => ((r.1, r.2.1), r.2.2))
      (channel .w64 ℕ ℕ) [(⟨[], [], []⟩, .poll 1), (⟨[], [.send 7], []⟩, .poll 2)]).map
      (fun r => r.1.map fun e => e.2.1) =
        some [.received .pending, .received (.ready (.ok 7))] := by
    decide +kernel
  obtain ⟨⟨es, s⟩, hres, hs⟩ := Option.map_eq_some_iff.mp hcheck
  have hrun : Run System.StepWith (channel .w64 ℕ ℕ) (es.map fun e => ⟨e.1.2, e.2.1, e.2.2⟩) s := by
    apply Run.relabel
    refine run_of_replay (fun s a r t hr => ?_) hres
    obtain ⟨⟨o, log, u⟩, hattempt, hr⟩ := Option.map_eq_some_iff.mp hr
    obtain ⟨rfl, rfl⟩ := Prod.mk.inj hr
    obtain ⟨hallowed, hexec⟩ := of_attempt hattempt
    exact ⟨hallowed, a.1, hexec⟩
  refine ⟨_, s, hrun, ?_, reentrant_linearizable hrun⟩
  rw [List.map_map]
  exact hs

end LocalSync.Oneshot
