/-
  The bounded and the unbounded channel agree while capacity lasts.

  Both channels run the same code on two semaphores.  `replace` puts another
  semaphore into a channel; a call on the channel that is left does what the call
  does on the original one, as long as the two semaphores stay in step
  (`Mirrors`).  A send on the bounded channel acquires a slot first, and gets it
  at its first poll when the queue holds less than the capacity, because the free
  slots and the values in the queue make up the capacity.

  `channels_agree` runs a script on both channels: all answers are the same, and
  so are the handles, the queue and the wake-ups.
-/
import LocalSync.Equiv.Delivery

namespace LocalSync.Mpsc

open Lib
open LocalSync.Semaphore (Inner Tracked Fair Slots)

variable {S S' T W : Type} [Semaphore S] [Semaphore S']

/-- **Two semaphores in step**: `Q x y n` says that `x` and `y` both account for `n` values, and
that one is closed when the other is. -/
structure Mirrors (Q : S → S' → ℕ → Prop) : Prop where
  isClosed : ∀ x y n, Q x y n → Semaphore.isClosed y = Semaphore.isClosed x
  addPermits : ∀ x y n k, Q x y (n + k) → ∃ x' y', Semaphore.addPermits x k = .ok x' ∧
    Semaphore.addPermits y k = .ok y' ∧ Q x' y' n
  close : ∀ x y n, Q x y n → ∃ x' y', Semaphore.close x = .ok x' ∧ Semaphore.close y = .ok y' ∧
    Q x' y' n

namespace Chan

variable {c d : Chan S T W} {y : S'} {xs : List T} {v : T} {Q : S → S' → ℕ → Prop}

/-- The channel with another semaphore. -/
def replace (c : Chan S T W) (y : S') : Chan S' T W :=
  { queue := c.queue
    semaphore := y
    rxWaker := c.rxWaker
    txCount := c.txCount
    woken := c.woken
    dropped := c.dropped }

omit [Semaphore S] [Semaphore S'] in
theorem replace_register [Waker W] (cx : W) :
    (c.replace y).register cx = (c.register cx).replace y := by
  unfold register replace
  dsimp only
  cases hw : c.rxWaker with
  | none => rfl
  | some w =>
    dsimp only
    split_ifs
    · rfl
    · rw [hw]

omit [Semaphore S] [Semaphore S'] in
/-- Consuming the elements has nothing to do with the semaphore. -/
theorem drain_replace (fuel : ℕ) (h : drain fuel c = .ok d) (y : S') :
    drain fuel (c.replace y) = .ok (d.replace y) ∧ d.semaphore = c.semaphore := by
  induction fuel generalizing c with
  | zero => cases h
  | succ fuel ih =>
    rw [drain] at h ⊢
    show (if !c.queue.isEmpty then _ else _) = _ ∧ _
    split_ifs at h ⊢
    · obtain ⟨⟨v, q⟩, hpop, h⟩ := bind_eq_ok.mp h
      obtain ⟨hres, hsem⟩ := ih h
      refine ⟨?_, hsem⟩
      show (c.queue.popUnchecked >>= _) = _
      rw [hpop, ok_bind]
      exact hres
    · obtain rfl := Except.ok.inj h
      exact ⟨rfl, rfl⟩

omit [Semaphore S] [Semaphore S'] in
theorem drop_replace (h : c.drop = .ok d) (y : S') :
    (c.replace y).drop = .ok (d.replace y) ∧ d.semaphore = c.semaphore := by
  obtain ⟨c', hdrain, h⟩ := bind_eq_ok.mp h
  obtain ⟨q, hfree, h⟩ := bind_eq_ok.mp h
  obtain rfl := Except.ok.inj h
  obtain ⟨hres, hsem⟩ := drain_replace _ hdrain y
  refine ⟨?_, hsem⟩
  rw [drop, show (c.replace y).queue.len = c.queue.len from rfl, hres, ok_bind]
  show (c'.queue.freeBlocks >>= _) = _
  rw [hfree]
  rfl

/-- **`close`** in both channels. -/
theorem close_mirror (hQ : Mirrors Q) {n : ℕ} (hy : Q c.semaphore y n) (h : c.close = .ok d) :
    ∃ z, (c.replace y).close = .ok (d.replace z) ∧ Q d.semaphore z n ∧ d.queue = c.queue := by
  obtain ⟨x', z, hx, hz, hQz⟩ := hQ.close _ _ _ hy
  rw [close, hx] at h
  obtain rfl := Except.ok.inj h
  refine ⟨z, ?_, hQz, rfl⟩
  rw [close, show Semaphore.close (c.replace y).semaphore = .ok z from hz]
  rfl

/-- The drop of a `Tx`. -/
theorem dropTx_mirror (hQ : Mirrors Q) {n : ℕ} (hy : Q c.semaphore y n) (h : c.dropTx = .ok d) :
    ∃ z, (c.replace y).dropTx = .ok (d.replace z) ∧ Q d.semaphore z n ∧ d.queue = c.queue := by
  rcases Nat.lt_trichotomy c.txCount 1 with hzero | hlast | hother
  · rw [dropTx, show c.txCount = 0 by omega] at h
    cases h
  · obtain ⟨x', z, hx, hz, hQz⟩ := hQ.close _ _ _ hy
    rw [dropTx_last hlast hx] at h
    obtain rfl := Except.ok.inj h
    exact ⟨z, dropTx_last (c := c.replace y) hlast hz, hQz, rfl⟩
  · rw [dropTx_other hother] at h
    obtain rfl := Except.ok.inj h
    exact ⟨y, dropTx_other (c := c.replace y) hother, hy, rfl⟩

/-- Taking out the oldest value. -/
theorem pop_mirror (hQ : Mirrors Q) (hq : c.queue.Represents (v :: xs))
    (hy : Q c.semaphore y c.queue.len) :
    ∃ q x' z, c.queue.popUnchecked = .ok (v, q) ∧ Semaphore.addPermits c.semaphore 1 = .ok x' ∧
      Semaphore.addPermits y 1 = .ok z ∧ Q x' z q.len := by
  obtain ⟨q, hpop, hq'⟩ := Queue.popUnchecked_spec hq
  rw [hq.len_eq, List.length_cons] at hy
  obtain ⟨x', z, hx, hz, hQz⟩ := hQ.addPermits _ _ _ 1 hy
  exact ⟨q, x', z, hpop, hx, hz, hq'.len_eq ▸ hQz⟩

theorem tryRecv_mirror (hQ : Mirrors Q) (hq : c.queue.Represents xs)
    (hy : Q c.semaphore y c.queue.len) {r : Except TryRecvError T} (h : c.tryRecv = .ok (r, d)) :
    ∃ z, (c.replace y).tryRecv = .ok (r, d.replace z) ∧ Q d.semaphore z d.queue.len := by
  have hempty := hq.isEmpty_eq
  unfold tryRecv at h ⊢
  simp only [replace]
  cases xs with
  | nil =>
    simp only [hempty, List.isEmpty_nil, Bool.not_true, Bool.false_eq_true, if_false] at h ⊢
    by_cases htx : c.txCount = 0
    · rw [if_pos htx] at h
      obtain ⟨rfl, rfl⟩ := Prod.mk.inj (Except.ok.inj h)
      exact ⟨y, if_pos htx, hy⟩
    · rw [if_neg htx] at h
      obtain ⟨rfl, rfl⟩ := Prod.mk.inj (Except.ok.inj h)
      exact ⟨y, if_neg htx, hy⟩
  | cons v xs =>
    obtain ⟨q, x', z, hpop, hx, hz, hQz⟩ := pop_mirror hQ hq hy
    simp only [hempty, List.isEmpty_cons, Bool.not_false, if_true, hpop, ok_bind, hx, hz] at h ⊢
    obtain ⟨rfl, rfl⟩ := Prod.mk.inj (Except.ok.inj h)
    exact ⟨z, rfl, hQz⟩

theorem recv_mirror [Waker W] (hQ : Mirrors Q) (hq : c.queue.Represents xs)
    (hy : Q c.semaphore y c.queue.len) {cx : W} {r : Poll (Option T)} (h : c.recv cx = .ok (r, d)) :
    ∃ z, (c.replace y).recv cx = .ok (r, d.replace z) ∧ Q d.semaphore z d.queue.len := by
  have hempty := hq.isEmpty_eq
  have hregister := replace_register (c := c) (y := y) cx
  obtain ⟨w, hw, -⟩ := c.register_eq cx
  unfold recv at h ⊢
  rw [hregister]
  simp only [replace]
  cases xs with
  | nil =>
    simp only [hempty, List.isEmpty_nil, Bool.not_true, Bool.false_eq_true, if_false] at h ⊢
    by_cases htx : c.txCount = 0
    · rw [if_pos htx] at h
      obtain ⟨rfl, rfl⟩ := Prod.mk.inj (Except.ok.inj h)
      exact ⟨y, if_pos htx, hy⟩
    · rw [if_neg htx] at h
      obtain ⟨rfl, rfl⟩ := Prod.mk.inj (Except.ok.inj h)
      refine ⟨y, if_neg htx, ?_⟩
      rw [hw]
      exact hy
  | cons v xs =>
    obtain ⟨q, x', z, hpop, hx, hz, hQz⟩ := pop_mirror hQ hq hy
    simp only [hempty, List.isEmpty_cons, Bool.not_false, if_true, hpop, ok_bind, hx, hz] at h ⊢
    obtain ⟨rfl, rfl⟩ := Prod.mk.inj (Except.ok.inj h)
    exact ⟨z, rfl, hQz⟩

/-- A send looks at the closed flag only. -/
theorem send_replace (hy : Semaphore.isClosed y = Semaphore.isClosed c.semaphore)
    {r : Except SendError Unit} (h : c.send v = .ok (r, d)) :
    (c.replace y).send v = .ok (r, d.replace y) ∧ d.semaphore = c.semaphore := by
  unfold send at h ⊢
  rw [show Semaphore.isClosed (c.replace y).semaphore = Semaphore.isClosed c.semaphore from hy]
  split_ifs at h ⊢
  · obtain ⟨rfl, rfl⟩ := Prod.mk.inj (Except.ok.inj h)
    exact ⟨rfl, rfl⟩
  · obtain ⟨q, hpush, h⟩ := bind_eq_ok.mp h
    obtain ⟨rfl, rfl⟩ := Prod.mk.inj (Except.ok.inj h)
    refine ⟨?_, rfl⟩
    rw [show (c.replace y).queue.pushUnchecked v = .ok q from hpush]
    rfl

/-- **The drop of `Rx`** gives all slots of the values back at once. -/
theorem dropRx_mirror (hQ : Mirrors Q) (hq : c.queue.Represents xs)
    (hy : Q c.semaphore y c.queue.len) (h : c.dropRx = .ok d) :
    ∃ z, (c.replace y).dropRx = .ok (d.replace z) ∧ Q d.semaphore z d.queue.len ∧
      d.queue.Represents [] := by
  obtain ⟨e, hclose, h⟩ := bind_eq_ok.mp h
  obtain ⟨z, hclose', hQz, hqueue⟩ := close_mirror hQ hy hclose
  rw [hqueue] at h
  obtain ⟨q, hdrain, hq'⟩ := drain_spec (c := e) (c.queue.len + 1) (hqueue ▸ hq)
    (by rw [hq.len_eq]; omega)
  obtain ⟨hdrain', -⟩ := drain_replace _ hdrain z
  rw [← Nat.zero_add c.queue.len] at hQz
  obtain ⟨x', z', hx, hz, hQz'⟩ := hQ.addPermits _ _ _ _ hQz
  simp only [hdrain, ok_bind, hx] at h
  obtain rfl := Except.ok.inj h
  refine ⟨z', ?_, ?_, hq'⟩
  · have hlen : (e.replace z).queue.len = c.queue.len := congrArg Queue.len hqueue
    rw [dropRx, hclose', ok_bind]
    dsimp only
    rw [hlen, hdrain', ok_bind]
    show (Semaphore.addPermits z c.queue.len >>= _) = _
    rw [hz]
    rfl
  · rw [show q.len = 0 from hq'.len_eq]
    exact hQz'

end Chan

namespace Handles

variable {s t : Handles S T W} {y : S'} {xs : List T} {v : T} {Q : S → S' → ℕ → Prop}

/-- The channel with its handles, on another semaphore. -/
def replace (s : Handles S T W) (y : S') : Handles S' T W :=
  { chan := s.chan.replace y
    txs := s.txs
    rx := s.rx
    accepted := s.accepted
    received := s.received
    polled := s.polled }

theorem send_replace (hy : Semaphore.isClosed y = Semaphore.isClosed s.chan.semaphore)
    {r : Except SendError Unit} (h : s.send v = .ok (r, t)) :
    (s.replace y).send v = .ok (r, t.replace y) ∧ t.chan.semaphore = s.chan.semaphore := by
  obtain ⟨⟨r', c⟩, hsend, h⟩ := bind_eq_ok.mp h
  obtain ⟨hsend', hsem⟩ := Chan.send_replace hy hsend
  rw [send, show (s.replace y).chan.send v = .ok (r', c.replace y) from hsend']
  cases r' <;> obtain ⟨rfl, rfl⟩ := Prod.mk.inj (Except.ok.inj h) <;> exact ⟨rfl, hsem⟩

omit [Semaphore S] [Semaphore S'] in
/-- The last handle takes the channel along: by then the queue is empty. -/
theorem release_mirror (hq : ¬ s.alive → s.chan.queue.Represents [])
    (hy : Q s.chan.semaphore y s.chan.queue.len) (h : s.release = .ok t) :
    (s.replace y).release = .ok (t.replace y) ∧ Q t.chan.semaphore y t.chan.queue.len := by
  by_cases ha : s.alive
  · rw [release, if_pos ha] at h
    obtain rfl := Except.ok.inj h
    exact ⟨if_pos ha, hy⟩
  · rw [release, if_neg ha] at h
    obtain ⟨c, hdrop, h⟩ := bind_eq_ok.mp h
    obtain rfl := Except.ok.inj h
    obtain ⟨hdrop', hsem⟩ := Chan.drop_replace hdrop y
    obtain ⟨q, hspec, hlen, -⟩ := Chan.drop_spec (hq ha)
    obtain rfl := Except.ok.inj (hdrop.symm.trans hspec)
    refine ⟨?_, ?_⟩
    · exact (if_neg ha).trans (bind_eq_ok.mpr ⟨_, hdrop', rfl⟩)
    · rw [(hq ha).len_eq] at hy
      rw [show q.len = _ from hlen]
      exact hy

/-- **Every call** does the same on both semaphores, and keeps them in step. -/
theorem exec_mirror [Waker W] (hQ : Mirrors Q) {R : S → ℕ → Prop} (hinv : Inv R s xs)
    (hy : Q s.chan.semaphore y s.chan.queue.len) {call : Call W} (hcall : s.Allowed call)
    {o : Answer T} (h : s.exec call = .ok (o, t)) :
    ∃ z, (s.replace y).exec call = .ok (o, t.replace z) ∧
      Q t.chan.semaphore z t.chan.queue.len := by
  cases call with
  | clone tx new =>
    obtain ⟨rfl, rfl⟩ := Prod.mk.inj (Except.ok.inj h)
    exact ⟨y, rfl, hy⟩
  | dropTx tx =>
    obtain ⟨t', hdrop, h⟩ := bind_eq_ok.mp h
    obtain ⟨rfl, rfl⟩ := Prod.mk.inj (Except.ok.inj h)
    obtain ⟨c, hchan, hrel⟩ := bind_eq_ok.mp hdrop
    obtain ⟨z, hchan', hz, hqueue⟩ := Chan.dropTx_mirror hQ hy hchan
    rw [← hqueue] at hz
    have hempty : ¬ Handles.alive { s with chan := c, txs := s.txs.erase tx } →
        c.queue.Represents [] := by
      intro ha
      have hrx : s.rx = false := by
        by_contra hne
        exact ha (Or.inr (Bool.not_eq_false _ ▸ hne))
      have hq := hinv.queue (Or.inl ⟨tx, hcall⟩)
      rw [(hinv.flow.no_rx hrx).2] at hq
      exact hqueue ▸ hq
    obtain ⟨hrel', hz'⟩ := release_mirror (y := z) hempty hz hrel
    exact ⟨z, bind_eq_ok.mpr ⟨_, bind_eq_ok.mpr ⟨_, hchan', hrel'⟩, rfl⟩, hz'⟩
  | isClosed tx =>
    obtain ⟨rfl, rfl⟩ := Prod.mk.inj (Except.ok.inj h)
    refine ⟨y, ?_, hy⟩
    rw [exec, show (s.replace y).chan.isClosed = s.chan.isClosed from hQ.isClosed _ _ _ hy]
    rfl
  | recv cx =>
    obtain ⟨⟨r, t'⟩, hrecv, h⟩ := bind_eq_ok.mp h
    obtain ⟨rfl, rfl⟩ := Prod.mk.inj (Except.ok.inj h)
    obtain ⟨⟨r', c⟩, hchan, hrecv⟩ := bind_eq_ok.mp hrecv
    obtain ⟨z, hchan', hz⟩ := Chan.recv_mirror hQ (hinv.queue (Or.inr hcall)) hy hchan
    refine ⟨z, ?_, ?_⟩
    · rw [exec, recv, show (s.replace y).chan.recv cx = _ from hchan']
      rcases r' with (_ | v) | _ <;> obtain ⟨rfl, rfl⟩ := Prod.mk.inj (Except.ok.inj hrecv) <;> rfl
    · rcases r' with (_ | v) | _ <;> obtain ⟨rfl, rfl⟩ := Prod.mk.inj (Except.ok.inj hrecv) <;>
        exact hz
  | tryRecv =>
    obtain ⟨⟨r, t'⟩, hrecv, h⟩ := bind_eq_ok.mp h
    obtain ⟨rfl, rfl⟩ := Prod.mk.inj (Except.ok.inj h)
    obtain ⟨⟨r', c⟩, hchan, hrecv⟩ := bind_eq_ok.mp hrecv
    obtain ⟨z, hchan', hz⟩ := Chan.tryRecv_mirror hQ (hinv.queue (Or.inr hcall)) hy hchan
    refine ⟨z, ?_, ?_⟩
    · rw [exec, tryRecv, show (s.replace y).chan.tryRecv = _ from hchan']
      cases r' <;> obtain ⟨rfl, rfl⟩ := Prod.mk.inj (Except.ok.inj hrecv) <;> rfl
    · cases r' <;> obtain ⟨rfl, rfl⟩ := Prod.mk.inj (Except.ok.inj hrecv) <;> exact hz
  | close =>
    obtain ⟨t', hclose, h⟩ := bind_eq_ok.mp h
    obtain ⟨rfl, rfl⟩ := Prod.mk.inj (Except.ok.inj h)
    obtain ⟨c, hchan, hclose⟩ := bind_eq_ok.mp hclose
    obtain rfl := Except.ok.inj hclose
    obtain ⟨z, hchan', hz, hqueue⟩ := Chan.close_mirror hQ hy hchan
    refine ⟨z, bind_eq_ok.mpr ⟨_, bind_eq_ok.mpr ⟨_, hchan', rfl⟩, rfl⟩, ?_⟩
    rw [show c.queue = _ from hqueue]
    exact hz
  | dropRx =>
    obtain ⟨t', hdrop, h⟩ := bind_eq_ok.mp h
    obtain ⟨rfl, rfl⟩ := Prod.mk.inj (Except.ok.inj h)
    obtain ⟨c, hchan, hrel⟩ := bind_eq_ok.mp hdrop
    obtain ⟨z, hchan', hz, hempty⟩ := Chan.dropRx_mirror hQ (hinv.queue (Or.inr hcall)) hy hchan
    obtain ⟨hrel', hz'⟩ := release_mirror (y := z) (fun _ => hempty) hz hrel
    exact ⟨z, bind_eq_ok.mpr ⟨_, bind_eq_ok.mpr ⟨_, hchan', hrel'⟩, rfl⟩, hz'⟩

end Handles

/-! ### The two channels -/

section

variable {P : PointerWidth} [Waker W]

/-- A step of a script, on either channel.  A send on the bounded channel is awaited: its future is
at the address `i`, and is polled with the waker `cx`. -/
inductive Op (T W : Type) where
  | call (c : Call W)
  | send (tx : ℕ) (value : T) (i : Addr) (cx : W)

/-- The queue holds less than `b` values when a value is sent while the channel is open. -/
def Handles.Room (b : ℕ) (s : Handles S T W) : Op T W → Prop
  | .call _ => True
  | .send .. => s.chan.isClosed = false → s.chan.queue.len < b

instance (b : ℕ) (s : Handles S T W) (e : Op T W) : Decidable (s.Room b e) := by
  cases e <;> unfold Handles.Room <;> infer_instance

/-- The call of the unbounded channel. -/
def Op.unbounded : Op T W → Unbounded.Action T W
  | .call c => .call c
  | .send tx value _ _ => .send tx value

namespace Unbounded

/-- A step of a script on the unbounded channel. -/
def OpStep (s : Channel T W) (e : Op T W × Answer T) (t : Channel T W) : Prop :=
  Step s (e.1.unbounded, e.2) t

end Unbounded

namespace Bounded.Channel

/-- A step of a script on the bounded channel: a send is created, polled once and dropped, as when
it is awaited and returns at its first poll. -/
def OpStep (s : Channel P T W) (e : Op T W × Answer T) (t : Channel P T W) : Prop :=
  match e.1 with
  | .call c => Step s (.call c, e.2) t
  | .send tx value i cx =>
    Run Step s [(.send i tx value, .unit), (.poll i cx, e.2), (.drop i, .unit)] t

/-- Each step has one result. -/
theorem opStep_deterministic {s t t' : Channel P T W} {e : Op T W} {o o' : Answer T}
    (h : s.OpStep (e, o) t) (h' : s.OpStep (e, o') t') : o = o' ∧ t = t' := by
  have hdet : ∀ (s : Channel P T W) a b t b' t', s.Step (a, b) t → s.Step (a, b') t' →
      b = b' ∧ t = t' := by
    rintro s a b t b' t' ⟨-, hres⟩ ⟨-, hres'⟩
    exact Prod.mk.inj (Except.ok.inj (hres.symm.trans hres'))
  cases e with
  | call c => exact hdet _ _ _ _ _ _ h h'
  | send tx value i cx =>
    obtain ⟨hes, ht⟩ := Run.deterministic hdet h h' rfl
    simp only [List.cons.injEq, Prod.mk.injEq, true_and, and_true] at hes
    exact ⟨hes, ht⟩

end Bounded.Channel

open Bounded (Channel)

/-- The flag and the counter in step: both are closed or both are open, and the free slots and the
`n` values in the queue make up the capacity `b`. -/
def InStep (b : ℕ) (x : Unlimited) (y : Tracked P W) (n : ℕ) : Prop :=
  Semaphore.isClosed y = Semaphore.isClosed x ∧ ∃ a : Fair W, Slots b (fun _ => false) a y n

theorem inStep_mirrors {b : ℕ} (hb : b ≤ Inner.maxPermits P) :
    Mirrors (InStep b : Unlimited → Tracked P W → ℕ → Prop) where
  isClosed _ _ _ h := h.1
  addPermits x y n k h := by
    obtain ⟨hclosed, hslots⟩ := h
    obtain ⟨z, hz, hslots', hclosed'⟩ := (Bounded.slots_accounts hb _).addPermits y n k hslots
    exact ⟨x, z, rfl, hz, hclosed'.trans hclosed, hslots'⟩
  close x y n h := by
    obtain ⟨z, hz, hslots', hclosed'⟩ := (Bounded.slots_accounts hb _).close y n h.2
    exact ⟨{ x with closed := true }, z, rfl, hz, hclosed', hslots'⟩

/-- **The two channels agree**: they are the same but for their semaphores, which are both closed or
both open, and no send of the bounded channel is under way. -/
structure Agree (u : Unbounded.Channel T W) (s : Channel P T W) : Prop where
  handles : s.handles = u.replace s.handles.chan.semaphore
  isClosed : s.handles.chan.isClosed = u.chan.isClosed
  sends : s.sends = Store.empty

/-- The channels agree, and their semaphores are in step. -/
structure Linked (b : ℕ) (u : Unbounded.Channel T W) (s : Channel P T W) : Prop where
  agree : Agree u s
  slots : ∃ a : Fair W, Slots b (fun _ => false) a s.handles.chan.semaphore u.chan.queue.len

namespace Linked

variable {b : ℕ} {u u' : Unbounded.Channel T W} {s : Channel P T W} {xs : List T} {v : T} {tx : ℕ}

theorem new (hb : b ≤ Inner.maxPermits P) : Linked b (Unbounded.new T W) (Channel.new P T W b) where
  agree := ⟨rfl, (Slots.new (P := P) hb).isClosed, rfl⟩
  slots := ⟨_, .new hb⟩

/-- A state of the bounded channel that agrees with `u`, given by its semaphore. -/
theorem of_inStep {y : Tracked P W} (h : InStep b u.chan.semaphore y u.chan.queue.len) :
    Linked b u { handles := u.replace y, sends := Store.empty } where
  agree := ⟨rfl, h.1, rfl⟩
  slots := h.2

theorem exists_inStep (h : Linked b u s) :
    ∃ y, s = { handles := u.replace y, sends := Store.empty } ∧
      InStep b u.chan.semaphore y u.chan.queue.len := by
  obtain ⟨handles, sends⟩ := s
  obtain ⟨⟨hhandles, hclosed, rfl⟩, hslots⟩ := h
  refine ⟨handles.chan.semaphore, ?_, hclosed, hslots⟩
  rw [← hhandles]

/-- A call through a handle. -/
theorem call (hb : b ≤ Inner.maxPermits P) (hinv : Handles.Inv (fun _ _ => True) u xs)
    (h : Linked b u s) {c : Call W} {o : Answer T} (hstep : Unbounded.Step u (.call c, o) u') :
    ∃ t, s.Step (.call c, o) t ∧ Linked b u' t := by
  obtain ⟨y, rfl, hy⟩ := h.exists_inStep
  obtain ⟨hallowed, hexec⟩ := hstep
  obtain ⟨z, hexec', hz⟩ := Handles.exec_mirror (inStep_mirrors hb) hinv hy hallowed hexec
  refine ⟨_, ⟨?_, bind_eq_ok.mpr ⟨_, hexec', rfl⟩⟩, of_inStep hz⟩
  cases c with
  | dropTx tx => exact ⟨hallowed, rfl⟩
  | _ => exact hallowed

/-- The semaphore hands out a slot at the first poll, while there is room, and an error when the
channel is closed. -/
theorem acquireSlot_first (hb : b ≤ Inner.maxPermits P) {c : Chan (Tracked P W) T W} {n : ℕ}
    {x : Unlimited} (h : InStep b x c.semaphore n)
    (hroom : Semaphore.isClosed c.semaphore = false → n < b) (i : Addr) (cx : W) :
    ∃ z, Channel.acquireSlot c i true cx =
        .ok (.ready (if Semaphore.isClosed x then .error .closed else .ok ()),
          { c with semaphore := z }) ∧
      InStep b x z (if Semaphore.isClosed x then n else n + 1) := by
  obtain ⟨hclosed, a, hslots⟩ := h
  have ha : a.closed = Semaphore.isClosed x := hslots.isClosed.symm.trans hclosed
  have hfirst := hslots.awaitOne_first (fun hopen => hroom (hclosed.trans (ha.symm.trans hopen)))
    i cx
  obtain ⟨z, hres, hz⟩ := hslots.awaitOne hb (show (fun _ => false) i = !true from rfl) cx
  rw [hfirst] at hres hz
  rw [ha] at hres hz
  refine ⟨z, ?_, ?_, _, hz.2⟩
  · rw [Channel.acquireSlot, hres]
    rfl
  · exact hz.2.isClosed.trans ((Slots.closed_awaitOne a i true cx).trans ha)

/-- The body of a send, at its first poll. -/
theorem resume_first (hb : b ≤ Inner.maxPermits P) (hinv : Handles.Inv (fun _ _ => True) u xs)
    (htx : tx ∈ u.txs) {y : Tracked P W} (hy : InStep b u.chan.semaphore y u.chan.queue.len)
    (hroom : u.chan.isClosed = false → u.chan.queue.len < b) {r : Except SendError Unit}
    (hsend : u.send v = .ok (r, u')) (sends : Store Addr (Bounded.SendFuture T)) (i : Addr)
    (cx : W) :
    ∃ z, ({ handles := u.replace y, sends } : Channel P T W).resume i tx v true cx =
        .ok (.ready r,
          ({ handles := u'.replace z, sends } : Channel P T W).setStage i tx .returned) ∧
      InStep b u'.chan.semaphore z u'.chan.queue.len := by
  have hy' : InStep b u.chan.semaphore (u.replace y).chan.semaphore u.chan.queue.len := hy
  obtain ⟨z, hacq, hz⟩ := acquireSlot_first hb hy' (fun hopen => hroom (hy.1.symm.trans hopen)) i cx
  by_cases hclosed : Semaphore.isClosed u.chan.semaphore = true
  · -- the error of the semaphore is the error of the channel
    rw [if_pos hclosed] at hacq hz
    obtain ⟨rfl, rfl⟩ := Prod.mk.inj (Except.ok.inj
      (hsend.symm.trans (Handles.send_closed hclosed v)))
    refine ⟨z, ?_, hz⟩
    rw [Channel.resume, hacq]
    rfl
  · have hopen : u.chan.isClosed = false := Bool.eq_false_iff.mpr hclosed
    have hqueue := hinv.queue (Or.inl ⟨tx, htx⟩)
    obtain ⟨w, hspec, -, hqueue', -⟩ := Handles.send_open hinv.flow hqueue hopen v
    obtain ⟨rfl, rfl⟩ := Prod.mk.inj (Except.ok.inj (hsend.symm.trans hspec))
    rw [if_neg hclosed] at hacq hz
    obtain ⟨hsend', hsem⟩ := Handles.send_replace (y := z) hz.1 hsend
    refine ⟨z, ?_, ?_⟩
    · rw [Channel.resume, hacq, ok_bind]
      exact bind_eq_ok.mpr ⟨(.ok (), u'.replace z), hsend', rfl⟩
    · rw [hsem, hqueue'.len_eq, List.length_append, ← hqueue.len_eq]
      exact hz

/-- **A send**, while there is room. -/
theorem send (hb : b ≤ Inner.maxPermits P) (hinv : Handles.Inv (fun _ _ => True) u xs)
    (h : Linked b u s) {o : Answer T} (hroom : u.chan.isClosed = false → u.chan.queue.len < b)
    (hstep : Unbounded.Step u (.send tx v, o) u') (i : Addr) (cx : W) :
    ∃ t, s.OpStep (.send tx v i cx, o) t ∧ Linked b u' t := by
  obtain ⟨y, rfl, hy⟩ := h.exists_inStep
  obtain ⟨htx, hexec⟩ := hstep
  obtain ⟨⟨r, u''⟩, hsend, hres⟩ := bind_eq_ok.mp hexec
  obtain ⟨rfl, rfl⟩ := Prod.mk.inj (Except.ok.inj hres)
  let s₁ : Channel P T W :=
    Channel.setStage { handles := u.replace y, sends := Store.empty } i tx (.unresumed v)
  obtain ⟨z, hresume, hz⟩ := resume_first hb hinv htx hy hroom hsend s₁.sends i cx
  let s₂ : Channel P T W :=
    Channel.setStage { handles := u''.replace z, sends := s₁.sends } i tx .returned
  have hcreate : Channel.Step { handles := u.replace y, sends := Store.empty }
      (.send i tx v, .unit) s₁ := ⟨⟨htx, rfl⟩, rfl⟩
  have hpoll : s₁.Step (.poll i cx, .sent (.ready r)) s₂ := by
    have hget : s₁.sends.get? i = some { tx, stage := .unresumed v } := Store.get?_insert_self _ _ _
    refine ⟨?_, bind_eq_ok.mpr ⟨(.ready r, s₂), ?_, rfl⟩⟩
    · show s₁.unfinished i = true
      rw [Channel.unfinished, hget]
      rfl
    · rw [Channel.pollSend, hget]
      exact hresume
  have hget : s₂.sends.get? i = some { tx, stage := .returned } := Store.get?_insert_self _ _ _
  have hempty : s₂.sends.erase i = Store.empty := by
    refine Store.ext_get? fun j => ?_
    rw [Store.get?_erase, Store.get?_empty]
    split_ifs with hj
    · rfl
    · exact (Store.get?_insert_of_ne _ _ hj).trans (Store.get?_insert_of_ne _ _ hj)
  have hdrop : s₂.Step (.drop i, .unit) { handles := u''.replace z, sends := Store.empty } := by
    refine ⟨?_, bind_eq_ok.mpr ⟨_, ?_, rfl⟩⟩
    · show (s₂.sends.get? i).isSome = true
      rw [hget]
      rfl
    · rw [Channel.dropSend, hget]
      show Except.ok _ = _
      rw [hempty]
      rfl
  exact ⟨_, .cons hcreate (.cons hpoll (.single hdrop)), of_inStep hz⟩

/-- **One step of a script on the unbounded channel**, while there is room. -/
theorem step (hb : b ≤ Inner.maxPermits P) (hinv : Handles.Inv (fun _ _ => True) u xs)
    (h : Linked b u s) {e : Op T W × Answer T} (hroom : u.Room b e.1)
    (hstep : Unbounded.OpStep u e u') : ∃ t, s.OpStep e t ∧ Linked b u' t := by
  obtain ⟨op, o⟩ := e
  cases op with
  | call c => exact call hb hinv h hstep
  | send tx v i cx => exact send hb hinv h hroom hstep i cx

/-- What is allowed on the bounded channel is allowed on the unbounded one. -/
theorem allowed (h : Linked b u s) {e : Op T W × Answer T} {t : Channel P T W}
    (hstep : s.OpStep e t) : Unbounded.Allowed u e.1.unbounded := by
  obtain ⟨y, rfl, -⟩ := h.exists_inStep
  obtain ⟨op, o⟩ := e
  cases op with
  | call c =>
    obtain ⟨hallowed, -⟩ := hstep
    cases c with
    | dropTx tx => exact hallowed.1
    | _ => exact hallowed
  | send tx v i cx =>
    obtain ⟨s₁, hcreate, -⟩ := Run.cons_inv hstep
    exact hcreate.1.1

/-- **One step of a script on the bounded channel**, while there is room. -/
theorem step_back (hb : b ≤ Inner.maxPermits P) (hinv : Handles.Inv (fun _ _ => True) u xs)
    (h : Linked b u s) {e : Op T W × Answer T} (hroom : s.handles.Room b e.1) {t : Channel P T W}
    (hstep : s.OpStep e t) : ∃ u', Unbounded.OpStep u e u' ∧ Linked b u' t := by
  have hroom' : u.Room b e.1 := by
    obtain ⟨y, rfl, hy⟩ := h.exists_inStep
    cases hop : e.1 with
    | call c => trivial
    | send tx v i cx =>
      rw [hop] at hroom
      exact fun hopen => hroom (hy.1.trans hopen)
  obtain ⟨op, o⟩ := e
  have hallowed := h.allowed hstep
  obtain ⟨o', u', ys, hexec, -⟩ := Unbounded.exec_spec hinv hallowed
  have hstep' : Unbounded.OpStep u (op, o') u' := ⟨hallowed, hexec⟩
  obtain ⟨t', hbounded, hlinked⟩ := step hb hinv h (e := (op, o')) hroom' hstep'
  obtain ⟨rfl, rfl⟩ := Channel.opStep_deterministic hstep hbounded
  exact ⟨u', hstep', hlinked⟩

end Linked

/-- **The channels agree while capacity lasts.**  A script with room at each send runs on both
channels with the same answers, and leaves both in the same state but for their semaphores. -/
theorem channels_agree {b : ℕ} (hb : b ≤ Inner.maxPermits P) :
    (∀ es u, Run (fun u e u' => u.Room b e.1 ∧ Unbounded.OpStep u e u') (Unbounded.new T W) es u →
      ∃ s, Run Channel.OpStep (Channel.new P T W b) es s ∧ Agree u s ∧
        ∀ es' s', Run Channel.OpStep (Channel.new P T W b) es' s' →
          es'.map Prod.fst = es.map Prod.fst → es' = es ∧ s' = s) ∧
    ∀ es s, Run (fun s e s' => s.handles.Room b e.1 ∧ s.OpStep e s') (Channel.new P T W b) es s →
      ∃ u, Run Unbounded.OpStep (Unbounded.new T W) es u ∧ Agree u s := by
  have hinv : ∀ u : Unbounded.Channel T W, (∃ xs, Handles.Inv (fun _ _ => True) u xs) →
      ∀ e u', Unbounded.OpStep u e u' → ∃ xs, Handles.Inv (fun _ _ => True) u' xs := by
    rintro u ⟨xs, h⟩ e u' ⟨hallowed, hexec⟩
    obtain ⟨o, v, ys, hexec', h', -⟩ := Unbounded.exec_spec h hallowed
    obtain ⟨-, rfl⟩ := Prod.mk.inj (Except.ok.inj (hexec.symm.trans hexec'))
    exact ⟨ys, h'⟩
  have hnew : ∃ xs, Handles.Inv (fun _ _ => True) (Unbounded.new T W) xs :=
    ⟨[], Handles.new_inv trivial⟩
  constructor
  · intro es u hrun
    obtain ⟨s, hrun', hlinked, -⟩ := hrun.simulate
      (R := fun u s => Linked b u s ∧ ∃ xs, Handles.Inv (fun _ _ => True) u xs)
      (fun u e u' s h hstep => by
        obtain ⟨hlinked, xs, hu⟩ := h
        obtain ⟨t, hstep', hlinked'⟩ := hlinked.step hb hu hstep.1 hstep.2
        exact ⟨t, hstep', hlinked', hinv u ⟨xs, hu⟩ e u' hstep.2⟩)
      ⟨.new hb, hnew⟩
    refine ⟨s, hrun', hlinked.agree, fun es' s' hrun'' hes => ?_⟩
    exact Run.deterministic (fun _ _ _ _ _ _ => Channel.opStep_deterministic) hrun'' hrun' hes
  · intro es s hrun
    obtain ⟨u, hrun', hlinked, -⟩ := hrun.simulate
      (R := fun s u => Linked b u s ∧ ∃ xs, Handles.Inv (fun _ _ => True) u xs)
      (fun s e s' u h hstep => by
        obtain ⟨hlinked, xs, hu⟩ := h
        obtain ⟨u', hstep', hlinked'⟩ := hlinked.step_back hb hu hstep.1 hstep.2
        exact ⟨u', hstep', hlinked', hinv u ⟨xs, hu⟩ e u' hstep'⟩)
      ⟨.new hb, hnew⟩
    exact ⟨u, hrun', hlinked.agree⟩

/-- A script on a channel for one value: two values go through, the receiver is woken once, and a
send after the channel has been closed fails on both channels. -/
theorem channels_agree_one : ∃ (es : List (Op ℕ ℕ × Answer ℕ)) (u : Unbounded.Channel ℕ ℕ)
    (s : Channel .w64 ℕ ℕ),
    Run (fun u e u' => u.Room 1 e.1 ∧ Unbounded.OpStep u e u') (Unbounded.new ℕ ℕ) es u ∧
      Run Channel.OpStep (Channel.new .w64 ℕ ℕ 1) es s ∧ Agree u s ∧
      s.handles.received = [10, 20] ∧ s.handles.accepted = [10, 20] ∧
      s.handles.chan.woken = [3] ∧ s.handles.chan.isClosed = true := by
  have hcheck : (replay (attempt (fun (u : Unbounded.Channel ℕ ℕ) e =>
        u.Room 1 e ∧ Unbounded.Allowed u e.unbounded) fun u e => Unbounded.exec u e.unbounded)
      (Unbounded.new ℕ ℕ) [.send 0 10 5 1, .call .tryRecv, .call (.recv 3), .send 0 20 5 1,
        .call (.clone 0 1), .call (.recv 4), .call .close, .send 1 30 6 2, .call .dropRx]).map
      (fun r => (r.2.received, r.2.accepted, r.2.chan.woken, r.2.chan.isClosed)) =
      some ([10, 20], [10, 20], [3], true) := by
    decide +kernel
  obtain ⟨⟨es, u⟩, hres, hu⟩ := Option.map_eq_some_iff.mp hcheck
  simp only [Prod.mk.injEq] at hu
  have hrun : Run (fun u e u' => u.Room 1 e.1 ∧ Unbounded.OpStep u e u') _ es u :=
    run_of_replay (fun u e o u' h => by
      obtain ⟨⟨hroom, hallowed⟩, hexec⟩ := of_attempt h
      exact ⟨hroom, hallowed, hexec⟩) hres
  obtain ⟨s, hrun', hagree, -⟩ := (channels_agree (P := .w64) (b := 1) (by decide)).1 es u hrun
  refine ⟨es, u, s, hrun, hrun', hagree, ?_⟩
  rw [hagree.isClosed, hagree.handles]
  exact hu

end

end LocalSync.Mpsc
