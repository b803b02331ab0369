/-
  The oneshot channel does what its abstract machine allows.

  Each function on the shared state is first given in closed form (`complete_eq`,
  `pollRecv_eq`, ...), which needs only that the flags tell which waker slots are
  full (`Inner.Sound`).  `System.Refines` then relates a system to a `Spec`;
  every allowed call returns, and its answer and its effect are those of the
  machine (`exec_spec`).  The laws of delivery are those of the machine's runs.
-/
import LocalSync.Oneshot.Spec

namespace LocalSync.Oneshot

open Lib

variable {P : PointerWidth} {T W : Type}

/-! ### Flags -/

namespace State

variable (s : State P)

@[simp] theorem new_flags : (new : State P).isComplete = false ∧
    (new : State P).isRxTaskSet = false ∧ (new : State P).isClosed = false ∧
    (new : State P).isTxTaskSet = false :=
  ⟨Flags.has_zero _ _, Flags.has_zero _ _, Flags.has_zero _ _, Flags.has_zero _ _⟩

@[simp] theorem setComplete_flags : s.setComplete.isComplete = true ∧
    s.setComplete.isRxTaskSet = s.isRxTaskSet ∧ s.setComplete.isClosed = s.isClosed ∧
    s.setComplete.isTxTaskSet = s.isTxTaskSet :=
  ⟨Flags.has_set_self _ _ _, Flags.has_set_of_ne _ _ nofun, Flags.has_set_of_ne _ _ nofun,
    Flags.has_set_of_ne _ _ nofun⟩

@[simp] theorem setClosed_flags : s.setClosed.isComplete = s.isComplete ∧
    s.setClosed.isRxTaskSet = s.isRxTaskSet ∧ s.setClosed.isClosed = true ∧
    s.setClosed.isTxTaskSet = s.isTxTaskSet :=
  ⟨Flags.has_set_of_ne _ _ nofun, Flags.has_set_of_ne _ _ nofun, Flags.has_set_self _ _ _,
    Flags.has_set_of_ne _ _ nofun⟩

@[simp] theorem setRxTask_flags : s.setRxTask.isComplete = s.isComplete ∧
    s.setRxTask.isRxTaskSet = true ∧ s.setRxTask.isClosed = s.isClosed ∧
    s.setRxTask.isTxTaskSet = s.isTxTaskSet :=
  ⟨Flags.has_set_of_ne _ _ nofun, Flags.has_set_self _ _ _, Flags.has_set_of_ne _ _ nofun,
    Flags.has_set_of_ne _ _ nofun⟩

@[simp] theorem setTxTask_flags : s.setTxTask.isComplete = s.isComplete ∧
    s.setTxTask.isRxTaskSet = s.isRxTaskSet ∧ s.setTxTask.isClosed = s.isClosed ∧
    s.setTxTask.isTxTaskSet = true :=
  ⟨Flags.has_set_of_ne _ _ nofun, Flags.has_set_of_ne _ _ nofun, Flags.has_set_of_ne _ _ nofun,
    Flags.has_set_self _ _ _⟩

@[simp] theorem unsetRxTask_flags : s.unsetRxTask.isComplete = s.isComplete ∧
    s.unsetRxTask.isRxTaskSet = false :=
  ⟨Flags.has_unset_of_ne _ _ nofun, Flags.has_unset_self _ _ _⟩

@[simp] theorem unsetTxTask_flags : s.unsetTxTask.isClosed = s.isClosed ∧
    s.unsetTxTask.isTxTaskSet = false :=
  ⟨Flags.has_unset_of_ne _ _ nofun, Flags.has_unset_self _ _ _⟩

@[simp] theorem setRxTask_unsetRxTask : s.unsetRxTask.setRxTask = s.setRxTask :=
  congrArg State.mk (Flags.set_unset _ _)

@[simp] theorem setTxTask_unsetTxTask : s.unsetTxTask.setTxTask = s.setTxTask :=
  congrArg State.mk (Flags.set_unset _ _)

variable {s}

theorem setRxTask_of_set (h : s.isRxTaskSet = true) : s.setRxTask = s :=
  congrArg State.mk (Flags.set_of_has _ _ h)

theorem setTxTask_of_set (h : s.isTxTaskSet = true) : s.setTxTask = s :=
  congrArg State.mk (Flags.set_of_has _ _ h)

end State

/-! ### The waker slots -/

namespace Task

variable {t : Task W} {isSet : Bool}

/-- A slot and its flag: each clone has been dropped once, or is the one in the slot. -/
structure Sound (t : Task W) (isSet : Bool) : Prop where
  isSet : isSet = t.waker.isSome
  balance : t.cloned = t.dropped ++ t.waker.toList

/-- The waker in the slot is woken, if there is one. -/
def wake (t : Task W) : Task W := { t with woken := t.woken ++ t.waker.toList }

/-- The waker in the slot is dropped, if there is one. -/
def clear (t : Task W) : Task W :=
  { t with waker := none, dropped := t.dropped ++ t.waker.toList }

/-- The slot holds a waker for the task of `cx`. -/
def register [Waker W] (t : Task W) (cx : W) : Task W :=
  match t.waker with
  | some w => if Waker.willWake w cx then t else t.clear.setTask cx
  | none => t.setTask cx

theorem uninit_sound : (uninit : Task W).Sound false := ⟨rfl, rfl⟩

theorem Sound.exists_waker (h : t.Sound true) : ∃ w, t.waker = some w :=
  Option.isSome_iff_exists.mp h.isSet.symm

theorem Sound.waker_eq (h : t.Sound false) : t.waker = none :=
  Option.isNone_iff_eq_none.mp (by simpa using h.isSet.symm)

theorem wakeByRef_eq (h : t.Sound true) : t.wakeByRef = .ok t.wake := by
  obtain ⟨w, hw⟩ := h.exists_waker
  simp [wakeByRef, withTask, wake, hw]

theorem dropTask_eq (h : t.Sound true) : t.dropTask = .ok t.clear := by
  obtain ⟨w, hw⟩ := h.exists_waker
  simp [dropTask, withTask, clear, hw]

theorem wake_of_empty (h : t.Sound false) : t.wake = t := by
  have hnone : t.waker.toList = [] := by rw [h.waker_eq, Option.toList_none]
  rw [wake, hnone, List.append_nil]

theorem clear_of_empty (h : t.Sound false) : t.clear = t := by
  have hnone := h.waker_eq
  rw [clear, hnone, Option.toList_none, List.append_nil]
  cases t
  obtain rfl := hnone
  rfl

theorem Sound.wake (h : t.Sound isSet) : t.wake.Sound isSet := ⟨h.isSet, h.balance⟩

theorem Sound.clear (h : t.Sound isSet) : t.clear.Sound false :=
  ⟨rfl, by rw [Task.clear, h.balance, Option.toList_none, List.append_nil]⟩

theorem Sound.setTask (h : t.Sound false) (cx : W) : (t.setTask cx).Sound true := by
  refine ⟨rfl, ?_⟩
  have hbalance := h.balance
  rw [h.waker_eq, Option.toList_none, List.append_nil] at hbalance
  rw [Task.setTask, hbalance]
  rfl

theorem Sound.register [Waker W] (h : t.Sound isSet) (cx : W) : (t.register cx).Sound true := by
  cases isSet with
  | false =>
    rw [Task.register, h.waker_eq]
    exact h.setTask cx
  | true =>
    obtain ⟨w, hw⟩ := h.exists_waker
    rw [Task.register, hw]
    show Sound (if Waker.willWake w cx then t else t.clear.setTask cx) true
    split_ifs
    · exact h
    · exact h.clear.setTask cx

end Task

/-! ### The functions on the shared state, in closed form -/

namespace Inner

variable {x : Inner P T W}

/-- The flags tell which slots are full. -/
structure Sound (x : Inner P T W) : Prop where
  rx : x.rxTask.Sound x.state.isRxTaskSet
  tx : x.txTask.Sound x.state.isTxTaskSet

theorem new_sound : (new P T W).Sound where
  rx := by
    rw [new, State.new_flags.2.1]
    exact Task.uninit_sound
  tx := by
    rw [new, State.new_flags.2.2.2]
    exact Task.uninit_sound

/-- After `complete`. -/
def completed (x : Inner P T W) : Inner P T W :=
  { x with
    state := x.state.setComplete
    rxTask := if x.state.isClosed then x.rxTask else x.rxTask.wake }

/-- After `close`. -/
def shut (x : Inner P T W) : Inner P T W :=
  { x with
    state := x.state.setClosed
    txTask := if x.state.isComplete then x.txTask else x.txTask.wake }

/-- After `drop`. -/
def freed (x : Inner P T W) : Inner P T W :=
  { x with
    rxTask := x.rxTask.clear
    txTask := x.txTask.clear
    value := none
    dropped := x.dropped ++ x.value.toList }

/-- After the sender has registered `cx`. -/
def registerTx [Waker W] (x : Inner P T W) (cx : W) : Inner P T W :=
  { x with state := x.state.setTxTask, txTask := x.txTask.register cx }

/-- After the receiver has registered `cx`. -/
def registerRx [Waker W] (x : Inner P T W) (cx : W) : Inner P T W :=
  { x with state := x.state.setRxTask, rxTask := x.rxTask.register cx }

theorem complete_eq (h : x.Sound) : x.complete = .ok (!x.state.isClosed, x.completed) := by
  have hrx := h.rx
  unfold complete completed
  by_cases hc : x.state.isClosed = true
  · simp [hc]
  · cases hset : x.state.isRxTaskSet with
    | false =>
      rw [hset] at hrx
      simp [hc, hset, Task.wake_of_empty hrx]
    | true =>
      rw [hset] at hrx
      simp [hc, hset, Task.wakeByRef_eq hrx]

theorem close_eq (h : x.Sound) : x.close = .ok x.shut := by
  have htx := h.tx
  unfold close shut
  by_cases hc : x.state.isComplete = true
  · simp [hc]
  · cases hset : x.state.isTxTaskSet with
    | false =>
      rw [hset] at htx
      simp [hc, hset, Task.wake_of_empty htx]
    | true =>
      rw [hset] at htx
      simp [hc, hset, Task.wakeByRef_eq htx]

theorem drop_eq (h : x.Sound) : x.drop = .ok x.freed := by
  have hrx := h.rx
  have htx := h.tx
  unfold drop freed
  cases hr : x.state.isRxTaskSet <;> cases ht : x.state.isTxTaskSet <;> rw [hr] at hrx <;>
    rw [ht] at htx <;>
    simp [hr, ht, Task.dropTask_eq, Task.clear_of_empty, hrx, htx]

/-- Awaiting the end of the receiver. -/
theorem pollClosed_eq [Waker W] (h : x.Sound) (cx : W) :
    x.pollClosed cx =
      .ok (if x.state.isClosed then (.ready (), x) else (.pending, x.registerTx cx)) := by
  have htx := h.tx
  unfold pollClosed registerTx
  by_cases hc : x.state.isClosed = true
  · simp [hc]
  · cases hset : x.state.isTxTaskSet with
    | false =>
      rw [hset] at htx
      simp [hc, hset, Task.register, htx.waker_eq]
    | true =>
      rw [hset] at htx
      obtain ⟨w, hw⟩ := htx.exists_waker
      cases hwill : Waker.willWake w cx with
      | true =>
        simp [hc, hset, Task.willWake, Task.withTask, hw, hwill, Task.register,
          State.setTxTask_of_set hset]
      | false =>
        simp [hc, hset, Task.willWake, Task.withTask, hw, hwill, Task.register,
          Task.dropTask_eq htx]

/-- Receiving: what is there is taken out, and else the receiver waits, if it may hope. -/
theorem pollRecv_eq [Waker W] (h : x.Sound) (cx : W) :
    x.pollRecv cx = .ok (if x.state.isComplete then x.recvValue
      else if x.state.isClosed then (.ready (.error ⟨⟩), x)
      else (.pending, x.registerRx cx)) := by
  have hrx := h.rx
  unfold pollRecv registerRx
  by_cases hd : x.state.isComplete = true
  · simp [hd]
  by_cases hc : x.state.isClosed = true
  · simp [hd, hc]
  cases hset : x.state.isRxTaskSet with
  | false =>
    rw [hset] at hrx
    simp [hd, hc, hset, Task.register, hrx.waker_eq]
  | true =>
    rw [hset] at hrx
    obtain ⟨w, hw⟩ := hrx.exists_waker
    cases hwill : Waker.willWake w cx with
    | true =>
      simp [hd, hc, hset, Task.willWake, Task.withTask, hw, hwill, Task.register,
        State.setRxTask_of_set hset]
    | false =>
      simp [hd, hc, hset, Task.willWake, Task.withTask, hw, hwill, Task.register,
        Task.dropTask_eq hrx]

/-! ### The slots stay sound -/

theorem Sound.completed (h : x.Sound) : x.completed.Sound where
  rx := by
    unfold Inner.completed
    rw [(State.setComplete_flags x.state).2.1]
    dsimp only
    split_ifs
    · exact h.rx
    · exact h.rx.wake
  tx := by
    unfold Inner.completed
    rw [(State.setComplete_flags x.state).2.2.2]
    exact h.tx

theorem Sound.shut (h : x.Sound) : x.shut.Sound where
  rx := by
    unfold Inner.shut
    rw [(State.setClosed_flags x.state).2.1]
    exact h.rx
  tx := by
    unfold Inner.shut
    rw [(State.setClosed_flags x.state).2.2.2]
    dsimp only
    split_ifs
    · exact h.tx
    · exact h.tx.wake

theorem Sound.registerTx [Waker W] (h : x.Sound) (cx : W) : (x.registerTx cx).Sound where
  rx := by
    unfold Inner.registerTx
    rw [(State.setTxTask_flags x.state).2.1]
    exact h.rx
  tx := by
    unfold Inner.registerTx
    rw [(State.setTxTask_flags x.state).2.2.2]
    exact h.tx.register cx

theorem Sound.registerRx [Waker W] (h : x.Sound) (cx : W) : (x.registerRx cx).Sound where
  rx := by
    unfold Inner.registerRx
    rw [(State.setRxTask_flags x.state).2.1]
    exact h.rx.register cx
  tx := by
    unfold Inner.registerRx
    rw [(State.setRxTask_flags x.state).2.2.2]
    exact h.tx

end Inner

/-! ### The system and its machine -/

/-- The channel is gone, and what it held is dropped. -/
def Spec.settle (a : Spec T) : Spec T :=
  { a with content := a.content.taken, dropped := a.dropped ++ a.content.value.toList }

theorem Spec.settle_of_value {a : Spec T} (h : a.content.value = none) : a.settle = a := by
  rw [settle, h, Content.taken_of_value h, Option.toList_none, List.append_nil]

theorem Spec.take_of_value {a : Spec T} (h : a.content.value = none) : a.take = a := by
  rw [take, Content.taken_of_value h]

namespace System

/-- How many handles point to the shared state. -/
def count (s : System P T W) : ℕ :=
  (if s.tx = some ⟨true⟩ then 1 else 0) + (if s.rx = some ⟨true⟩ then 1 else 0)

/-- The flags, the value and the handles are those of the machine. -/
structure Matches (s : System P T W) (a : Spec T) : Prop where
  /-- The sender is there while it is awaited. -/
  awaited : a.content = .awaited → s.tx = some ⟨true⟩
  gone : a.content ≠ .awaited → s.tx = none
  complete : s.inner.state.isComplete = s.tx.isNone
  closed : a.content = .awaited → s.inner.state.isClosed = a.closed
  value : s.inner.value = a.content.value
  dropped : s.inner.dropped = a.dropped
  receiver : s.rx.isSome = a.receiver
  /-- A receiver that has finished while the sender is there has closed the channel. -/
  finished : s.rx ≠ some ⟨true⟩ → a.content = .awaited → a.closed = true

/-- **The refinement relation.** -/
structure Refines (s : System P T W) (a : Spec T) : Prop extends Matches s a where
  strong : s.strong = s.count
  sound : s.strong ≠ 0 → s.inner.Sound
  /-- With the last handle the value goes, too. -/
  freed : s.strong = 0 → a.content.value = none

variable {s t : System P T W} {a : Spec T} {v : T}

theorem channel_refines : Refines (channel P T W) Spec.new where
  awaited _ := rfl
  gone h := absurd rfl h
  complete := State.new_flags.1
  closed _ := State.new_flags.2.2.1
  value := rfl
  dropped := rfl
  receiver := rfl
  finished h := absurd rfl h
  strong := rfl
  sound _ := Inner.new_sound
  freed _ := rfl

/-- A change of the shared state that is not visible to the machine. -/
theorem Refines.of_inner (h : Refines s a) {y : Inner P T W} (hy : y.Sound)
    (hcomplete : y.state.isComplete = s.inner.state.isComplete)
    (hclosed : y.state.isClosed = s.inner.state.isClosed) (hvalue : y.value = s.inner.value)
    (hdropped : y.dropped = s.inner.dropped) : Refines { s with inner := y } a :=
  ⟨⟨h.awaited, h.gone, hcomplete.trans h.complete, fun ha => hclosed.trans (h.closed ha),
    hvalue.trans h.value, hdropped.trans h.dropped, h.receiver, h.finished⟩, h.strong, fun _ => hy,
    h.freed⟩

/-- **An `Rc` is dropped**, and with the last one what the channel holds. -/
theorem dropRc_spec (h : Matches s a) (hsound : s.inner.Sound) (hstrong : s.strong = s.count + 1) :
    ∃ t, s.dropRc = .ok t ∧ Refines t (if s.count = 0 then a.settle else a) := by
  have hpred : s.strong - 1 = s.count := by omega
  unfold dropRc
  dsimp only
  rw [hpred]
  by_cases hzero : s.count = 0
  · have hgone : a.content ≠ .awaited := fun ha => by
      rw [count, if_pos (h.awaited ha)] at hzero
      omega
    rw [if_pos hzero, if_pos hzero, Inner.drop_eq hsound]
    refine ⟨_, rfl, ⟨fun ha => ?_, fun _ => h.gone hgone, h.complete, fun ha => ?_, ?_, ?_,
      h.receiver, fun _ ha => ?_⟩, rfl, fun hne => absurd hzero hne, fun _ => ?_⟩
    · exact absurd (Content.taken_eq_awaited.mp ha) hgone
    · exact absurd (Content.taken_eq_awaited.mp ha) hgone
    · exact (Content.value_taken _).symm
    · rw [Spec.settle, ← h.value, ← h.dropped]
      rfl
    · exact absurd (Content.taken_eq_awaited.mp ha) hgone
    · exact Content.value_taken _
  · rw [if_neg hzero, if_neg hzero]
    exact ⟨_, rfl, ⟨h.awaited, h.gone, h.complete, h.closed, h.value, h.dropped, h.receiver,
      h.finished⟩, rfl, fun _ => hsound, fun h0 => absurd h0 hzero⟩

/-! ### The sender's calls -/

/-- While the sender is there, the channel is, too. -/
theorem Refines.of_tx (h : Refines s a) (htx : s.tx.isSome = true) :
    a.content = .awaited ∧ s.tx = some ⟨true⟩ ∧ s.inner.Sound ∧ s.inner.state.isComplete = false ∧
      s.inner.state.isClosed = a.closed ∧ s.inner.value = none := by
  have ha : a.content = .awaited := by
    by_contra hne
    rw [h.gone hne] at htx
    cases htx
  have hsome := h.awaited ha
  refine ⟨ha, hsome, h.sound ?_, ?_, h.closed ha, ?_⟩
  · rw [h.strong, count, if_pos hsome]
    omega
  · rw [h.complete, hsome]
    rfl
  · rw [h.value, ha]
    rfl

theorem txInner_eq (htx : s.tx = some ⟨true⟩) : s.txInner = .ok s.inner := by
  rw [txInner, htx]

theorem isClosed_spec (h : Refines s a) (htx : s.tx.isSome = true) : s.isClosed = .ok a.closed := by
  obtain ⟨-, hsome, -, -, hclosed, -⟩ := h.of_tx htx
  rw [isClosed, txInner_eq hsome, ← hclosed]
  rfl

theorem pollClosed_spec [Waker W] (h : Refines s a) (htx : s.tx.isSome = true) (cx : W) :
    ∃ t, s.pollClosed cx = .ok (if a.closed then .ready () else .pending, t) ∧ Refines t a := by
  obtain ⟨ha, hsome, hsound, -, hclosed, -⟩ := h.of_tx htx
  rw [pollClosed, txInner_eq hsome, ok_bind, Inner.pollClosed_eq hsound, hclosed, ok_bind]
  split_ifs with hc
  · exact ⟨s, rfl, h⟩
  · refine ⟨_, rfl, h.of_inner (hsound.registerTx cx) ?_ ?_ rfl rfl⟩
    · exact (State.setTxTask_flags _).1
    · exact (State.setTxTask_flags _).2.2.1

/-- The sender goes, and leaves `c`. -/
theorem leave_spec (h : Refines s a) (htx : s.tx.isSome = true) {y : Inner P T W} {c : Content T}
    (hy : y.Sound) (hcomplete : y.state.isComplete = true) (hvalue : y.value = c.value)
    (hdropped : y.dropped = a.dropped) (hc : c ≠ .awaited)
    (hread : s.rx ≠ some ⟨true⟩ → c.value = none) :
    ∃ t, dropRc { s with tx := none, inner := y } = .ok t ∧ Refines t { a with content := c } := by
  obtain ⟨ha, hsome, -⟩ := h.of_tx htx
  have hmatches : Matches { s with tx := none, inner := y } { a with content := c } :=
    ⟨fun hc' => absurd hc' hc, fun _ => rfl, hcomplete, fun hc' => absurd hc' hc, hvalue, hdropped,
      h.receiver, fun _ hc' => absurd hc' hc⟩
  have hstrong : s.strong = count { s with tx := none, inner := y } + 1 := by
    rw [h.strong]
    simp [count, hsome, Nat.add_comm]
  obtain ⟨t, hres, ht⟩ := dropRc_spec hmatches hy hstrong
  refine ⟨t, hres, ?_⟩
  split_ifs at ht with hzero
  · have hrx : s.rx ≠ some ⟨true⟩ := fun hrx => by
      rw [count, if_pos hrx] at hzero
      omega
    rwa [Spec.settle_of_value (hread hrx)] at ht
  · exact ht

theorem send_spec (h : Refines s a) (htx : s.tx.isSome = true) (v : T) :
    ∃ t, s.send v = .ok (if a.closed then .error v else .ok (), t) ∧
      Refines t { a with content := if a.closed then .spent else .full v } := by
  obtain ⟨ha, hsome, hsound, hcomplete, hclosed, hvalue⟩ := h.of_tx htx
  have hset : (s.inner.setValue v).Sound := ⟨hsound.rx, hsound.tx⟩
  obtain ⟨y, hy⟩ : ∃ y, y = (s.inner.setValue v).completed := ⟨_, rfl⟩
  have hsound' : y.Sound := hy ▸ hset.completed
  have hcomplete' : y.state.isComplete = true := hy ▸ (State.setComplete_flags _).1
  have hvalue' : y.value = some v := hy ▸ rfl
  have hdropped : y.dropped = a.dropped := by
    rw [hy, Inner.completed, Inner.setValue, hvalue, Option.toList_none, List.append_nil, h.dropped]
  rw [send, txInner_eq hsome, ok_bind]
  dsimp only
  rw [Inner.complete_eq hset, ok_bind, ← hy, show (s.inner.setValue v).state.isClosed = a.closed
    from hclosed]
  simp only [Bool.not_not]
  split_ifs with hc
  · -- the value is taken back out
    obtain ⟨t, hres, ht⟩ := leave_spec (c := .spent) h htx (y := y.consumeValue.2)
      ⟨hsound'.rx, hsound'.tx⟩ hcomplete' rfl hdropped nofun fun _ => rfl
    refine ⟨t, ?_, ht⟩
    rw [show y.consumeValue = (some v, y.consumeValue.2) from Prod.ext hvalue' rfl]
    dsimp only
    rw [hres]
    rfl
  · obtain ⟨t, hres, ht⟩ := leave_spec (c := .full v) h htx hsound' hcomplete' hvalue' hdropped
      nofun
      fun hrx => absurd (h.finished hrx ha) hc
    refine ⟨t, ?_, ht⟩
    rw [hres]
    rfl

theorem dropTx_spec (h : Refines s a) (htx : s.tx.isSome = true) :
    ∃ t, s.dropTx = .ok t ∧ Refines t { a with content := .spent } := by
  obtain ⟨ha, hsome, hsound, hcomplete, hclosed, hvalue⟩ := h.of_tx htx
  obtain ⟨t, hres, ht⟩ := leave_spec (c := .spent) h htx hsound.completed
    (State.setComplete_flags _).1 hvalue h.dropped nofun fun _ => rfl
  refine ⟨t, ?_, ht⟩
  rw [dropTx, hsome]
  dsimp only
  rw [Inner.complete_eq hsound, ok_bind]
  exact hres

/-! ### The receiver's calls -/

/-- A receiver that has finished leaves no value behind. -/
theorem Refines.value_eq (h : Refines s a) (hrx : s.rx ≠ some ⟨true⟩) : a.content.value = none := by
  by_cases ha : a.content = .awaited
  · rw [ha, Content.value_awaited]
  · apply h.freed
    rw [h.strong, count, h.gone ha, if_neg (by simp), if_neg hrx]

theorem Refines.sound_of_rx (h : Refines s a) (hrx : s.rx = some ⟨true⟩) : s.inner.Sound := by
  apply h.sound
  rw [h.strong, count, if_pos hrx]
  omega

/-- The channel is complete when the sender is not awaited any more. -/
theorem Refines.isComplete_eq (h : Refines s a) :
    s.inner.state.isComplete = true ↔ a.content ≠ .awaited := by
  rw [h.complete]
  by_cases ha : a.content = .awaited
  · simp [ha, h.awaited ha]
  · simp [ha, h.gone ha]

/-- The receiver finishes, with the value taken out. -/
theorem finish_spec (h : Refines s a) (hrx : s.rx = some ⟨true⟩) {y : Inner P T W} (hy : y.Sound)
    (hstate : y.state = s.inner.state) (hvalue : y.value = none)
    (hdropped : y.dropped = s.inner.dropped) (hclosed : a.content = .awaited → a.closed = true) :
    ∃ t, finish { s with inner := y } = .ok t ∧ Refines t a.take := by
  have htaken : a.take.content.value = none := Content.value_taken _
  have hmatches : Matches { s with inner := y, rx := some ⟨false⟩ } a.take := by
    refine ⟨fun ha => ?_, fun ha => ?_, ?_, fun ha => ?_, ?_, ?_, ?_, fun _ ha => ?_⟩
    · exact h.awaited (Content.taken_eq_awaited.mp ha)
    · exact h.gone fun hc => ha (Content.taken_eq_awaited.mpr hc)
    · show y.state.isComplete = s.tx.isNone
      rw [hstate, h.complete]
    · show y.state.isClosed = a.closed
      rw [hstate, h.closed (Content.taken_eq_awaited.mp ha)]
    · exact hvalue.trans htaken.symm
    · exact hdropped.trans h.dropped
    · show true = a.receiver
      rw [← h.receiver, hrx]
      rfl
    · exact hclosed (Content.taken_eq_awaited.mp ha)
  have hstrong : s.strong = count { s with inner := y, rx := some ⟨false⟩ } + 1 := by
    rw [h.strong]
    simp [count, hrx]
  obtain ⟨t, hres, ht⟩ := dropRc_spec hmatches hy hstrong
  rw [Spec.settle_of_value htaken, ite_self] at ht
  exact ⟨t, hres, ht⟩

theorem tryRecv_spec (h : Refines s a) (hrx : s.rx.isSome = true) :
    ∃ o t, s.tryRecv = .ok (o, t) ∧ a.Accepts (.tryRecv : Action T W) (.tried o) ∧
      Refines t a.take := by
  obtain ⟨⟨live⟩, hsome⟩ := Option.isSome_iff_exists.mp hrx
  cases live with
  | false =>
    have hne : s.rx ≠ some ⟨true⟩ := by simp [hsome]
    have hvalue := h.value_eq hne
    refine ⟨.error .closed, { s with rx := some { inner := false } }, ?_, ?_, ?_⟩
    · rw [tryRecv, hsome]
    · cases hc : a.content with
      | awaited => simp [Spec.Accepts, hc, h.finished hne hc]
      | full v => simp [hc] at hvalue
      | spent => simp [Spec.Accepts, hc]
    · rw [Spec.take_of_value hvalue, ← hsome]
      exact h
  | true =>
    have hsound := h.sound_of_rx hsome
    have hcomplete := h.isComplete_eq
    have hvalue := h.value
    have hfinish := fun hclosed => finish_spec (y := s.inner.consumeValue.2) h hsome
      ⟨hsound.rx, hsound.tx⟩ rfl rfl rfl hclosed
    cases hc : a.content with
    | awaited =>
      rw [hc, Content.value_awaited] at hvalue
      have hopen : s.inner.state.isComplete = false := by simp [← Bool.not_eq_true, hcomplete, hc]
      have hclosed := h.closed hc
      by_cases hcl : a.closed = true
      · obtain ⟨t, hres, ht⟩ := finish_spec h hsome hsound rfl hvalue rfl fun _ => hcl
        refine ⟨.error .closed, t, ?_, ?_, ht⟩
        · rw [tryRecv, hsome]
          simp only [hopen, hclosed, hcl, Bool.false_eq_true, if_false, if_true]
          rw [show s.finish = .ok t from hres]
          rfl
        · simp [Spec.Accepts, hc, hcl]
      · refine ⟨.error .empty, s, ?_, ?_, ?_⟩
        · rw [tryRecv, hsome]
          simp only [hopen, hclosed, hcl, Bool.false_eq_true, if_false]
        · simp [Spec.Accepts, hc, hcl]
        · rw [Spec.take_of_value (by rw [hc, Content.value_awaited])]
          exact h
    | full v =>
      have hne : a.content ≠ .awaited := by simp [hc]
      rw [hc, Content.value_full] at hvalue
      obtain ⟨t, hres, ht⟩ := hfinish fun ha => absurd ha hne
      refine ⟨.ok v, t, ?_, ?_, ht⟩
      · rw [tryRecv, hsome]
        simp only [hcomplete.mpr hne, if_true]
        rw [show s.inner.consumeValue = (some v, s.inner.consumeValue.2) from Prod.ext hvalue rfl]
        dsimp only
        rw [← hsome, hres]
        rfl
      · simp [Spec.Accepts, hc]
    | spent =>
      have hne : a.content ≠ .awaited := by simp [hc]
      rw [hc, Content.value_spent] at hvalue
      obtain ⟨t, hres, ht⟩ := hfinish fun ha => absurd ha hne
      refine ⟨.error .closed, t, ?_, ?_, ht⟩
      · rw [tryRecv, hsome]
        simp only [hcomplete.mpr hne, if_true]
        rw [show s.inner.consumeValue = (none, s.inner.consumeValue.2) from Prod.ext hvalue rfl]
        dsimp only
        rw [← hsome, hres]
        rfl
      · simp [Spec.Accepts, hc]

section Poll

variable [Waker W] {cx : W} {y : Inner P T W} {r : Poll (Except RecvError T)}

/-- A poll that gets a value. -/
theorem poll_eq_value (hrx : s.rx = some ⟨true⟩)
    (hpoll : s.inner.pollRecv cx = .ok (.ready (.ok v), y))
    (hres : finish { s with inner := y } = .ok t) : s.poll cx = .ok (.ready (.ok v), t) := by
  rw [poll, hrx]
  dsimp only
  rw [hpoll, ok_bind]
  dsimp only
  rw [← hrx, hres]
  rfl

/-- A poll that gets none. -/
theorem poll_eq (hrx : s.rx = some ⟨true⟩) (hpoll : s.inner.pollRecv cx = .ok (r, y))
    (hr : ∀ v, r ≠ .ready (.ok v)) : s.poll cx = .ok (r, { s with inner := y }) := by
  rw [poll, hrx]
  dsimp only
  rw [hpoll, ok_bind, ← hrx]
  rcases r with (e | v) | _
  · rfl
  · exact absurd rfl (hr v)
  · rfl

/-- A poll; only that of a receiver that has finished panics. -/
theorem poll_spec (h : Refines s a) (hrx : s.rx.isSome = true) (cx : W) :
    ∃ o t, s.exec (.poll cx) = .ok (o, t) ∧ a.Accepts (.poll cx) o ∧ Refines t a.take ∧
      (o = .unwound → s.rx = some ⟨false⟩) := by
  obtain ⟨⟨live⟩, hsome⟩ := Option.isSome_iff_exists.mp hrx
  cases live with
  | false =>
    have hne : s.rx ≠ some ⟨true⟩ := by simp [hsome]
    have hvalue := h.value_eq hne
    refine ⟨.unwound, s, ?_, ?_, ?_, fun _ => hsome⟩
    · rw [exec, poll, hsome]
    · cases hc : a.content with
      | awaited => simp [Spec.Accepts, hc, h.finished hne hc]
      | full v => simp [hc] at hvalue
      | spent => simp [Spec.Accepts, hc]
    · rw [Spec.take_of_value hvalue]
      exact h
  | true =>
    have hsound := h.sound_of_rx hsome
    have hcomplete := h.isComplete_eq
    have hvalue := h.value
    have hpoll := Inner.pollRecv_eq hsound cx
    cases hc : a.content with
    | awaited =>
      have htake : a.take = a := Spec.take_of_value (by rw [hc, Content.value_awaited])
      have hopen : s.inner.state.isComplete = false := by simp [← Bool.not_eq_true, hcomplete, hc]
      rw [hopen, if_neg Bool.false_ne_true, h.closed hc] at hpoll
      rw [htake]
      by_cases hcl : a.closed = true
      · rw [if_pos hcl] at hpoll
        refine ⟨.received (.ready (.error ⟨⟩)), s, ?_, ?_, h, by simp⟩
        · rw [exec, poll_eq hsome hpoll (by simp)]
        · simp [Spec.Accepts, hc, hcl]
      · rw [if_neg hcl] at hpoll
        refine ⟨.received .pending, { s with inner := s.inner.registerRx cx }, ?_, ?_, ?_, by simp⟩
        · rw [exec, poll_eq hsome hpoll (by simp)]
        · simp [Spec.Accepts, hc, hcl]
        · apply h.of_inner (hsound.registerRx cx) _ _ rfl rfl
          · exact (State.setRxTask_flags _).1
          · exact (State.setRxTask_flags _).2.2.1
    | full v =>
      have hne : a.content ≠ .awaited := by simp [hc]
      rw [hc, Content.value_full] at hvalue
      rw [hcomplete.mpr hne, if_pos rfl, Inner.recvValue,
        show s.inner.consumeValue = (some v, s.inner.consumeValue.2)
          from Prod.ext hvalue rfl] at hpoll
      obtain ⟨t, hres, ht⟩ := finish_spec (y := s.inner.consumeValue.2) h hsome
        ⟨hsound.rx, hsound.tx⟩ rfl rfl rfl fun ha => absurd ha hne
      refine ⟨.received (.ready (.ok v)), t, ?_, ?_, ht, by simp⟩
      · rw [exec, poll_eq_value hsome hpoll hres]
      · simp [Spec.Accepts, hc]
    | spent =>
      have hne : a.content ≠ .awaited := by simp [hc]
      rw [hc, Content.value_spent] at hvalue
      rw [hcomplete.mpr hne, if_pos rfl, Inner.recvValue,
        show s.inner.consumeValue = (none, s.inner.consumeValue.2)
          from Prod.ext hvalue rfl] at hpoll
      have htake : a.take = a := Spec.take_of_value (by rw [hc, Content.value_spent])
      refine ⟨.received (.ready (.error ⟨⟩)), { s with inner := s.inner.consumeValue.2 },
        ?_, ?_, ?_, by simp⟩
      · rw [exec, poll_eq hsome hpoll (by simp)]
      · simp [Spec.Accepts, hc]
      · rw [htake]
        exact h.of_inner ⟨hsound.rx, hsound.tx⟩ rfl rfl hvalue.symm rfl

end Poll

theorem close_spec (h : Refines s a) (hrx : s.rx.isSome = true) :
    ∃ t, s.close = .ok t ∧ Refines t { a with closed := true } := by
  obtain ⟨⟨live⟩, hsome⟩ := Option.isSome_iff_exists.mp hrx
  cases live with
  | false =>
    have hne : s.rx ≠ some ⟨true⟩ := by simp [hsome]
    refine ⟨s, by rw [close, hsome], ⟨h.awaited, h.gone, h.complete, fun ha => ?_, h.value,
      h.dropped, h.receiver, fun _ _ => rfl⟩, h.strong, h.sound, h.freed⟩
    rw [h.closed ha, h.finished hne ha]
  | true =>
    have hsound := h.sound_of_rx hsome
    refine ⟨{ s with inner := s.inner.shut }, ?_, ⟨h.awaited, h.gone, ?_, fun _ => ?_, h.value,
      h.dropped, h.receiver, fun _ _ => rfl⟩, h.strong, fun _ => hsound.shut, h.freed⟩
    · rw [close, hsome]
      dsimp only
      rw [Inner.close_eq hsound]
      exact congrArg Except.ok (by rw [← hsome])
    · exact (State.setClosed_flags _).1.trans h.complete
    · exact (State.setClosed_flags _).2.2.1

theorem dropRx_spec (h : Refines s a) (hrx : s.rx.isSome = true) :
    ∃ t, s.dropRx = .ok t ∧ Refines t a.leave := by
  obtain ⟨⟨live⟩, hsome⟩ := Option.isSome_iff_exists.mp hrx
  -- the machine, when nothing is dropped
  have hleave : a.content.value = none →
      a.leave = { a with closed := true, receiver := false } := by
    intro hvalue
    rw [Spec.leave, hvalue, Content.taken_of_value hvalue, Option.toList_none, List.append_nil]
  cases live with
  | false =>
    have hne : s.rx ≠ some ⟨true⟩ := by simp [hsome]
    refine ⟨{ s with rx := none }, by rw [dropRx, hsome], ?_⟩
    rw [hleave (h.value_eq hne)]
    refine ⟨⟨h.awaited, h.gone, h.complete, fun ha => ?_, h.value, h.dropped, rfl, fun _ _ => rfl⟩,
      ?_, h.sound, h.freed⟩
    · rw [h.closed ha, h.finished hne ha]
    · show s.strong = _
      rw [h.strong]
      simp [count, hsome]
  | true =>
    have hsound := h.sound_of_rx hsome
    have hmatches : Matches { s with rx := none, inner := s.inner.shut }
        { a with closed := true, receiver := false } := by
      refine ⟨h.awaited, h.gone, ?_, fun _ => ?_, h.value, h.dropped, rfl, fun _ _ => rfl⟩
      · exact (State.setClosed_flags _).1.trans h.complete
      · exact (State.setClosed_flags _).2.2.1
    have hstrong : s.strong = count { s with rx := none, inner := s.inner.shut } + 1 := by
      rw [h.strong]
      simp [count, hsome]
    obtain ⟨t, hres, ht⟩ := dropRc_spec hmatches hsound.shut hstrong
    refine ⟨t, ?_, ?_⟩
    · rw [dropRx, hsome]
      dsimp only
      rw [Inner.close_eq hsound]
      exact hres
    · split_ifs at ht with hzero
      · exact ht
      · -- the sender is still there
        have hawaited : a.content = .awaited := by
          by_contra hne
          apply hzero
          simp [count, h.gone hne]
        rwa [hleave (by rw [hawaited, Content.value_awaited])]

/-! ### Every call -/

/-- **Every allowed call returns** what the machine accepts, and has its effect. -/
theorem exec_spec [Waker W] (h : Refines s a) {c : Action T W} (hc : s.Allowed c) :
    ∃ o t, s.exec c = .ok (o, t) ∧ Spec.Step a (c, o) (a.next c) ∧ Refines t (a.next c) := by
  cases c with
  | pollClosed cx =>
    obtain ⟨t, hres, ht⟩ := pollClosed_spec h hc cx
    refine ⟨_, t, ?_, ⟨(h.of_tx hc).1, rfl, rfl⟩, ht⟩
    rw [exec, hres]
    rfl
  | isClosed =>
    refine ⟨_, s, ?_, ⟨(h.of_tx hc).1, rfl, rfl⟩, h⟩
    rw [exec, isClosed_spec h hc]
    rfl
  | send v =>
    obtain ⟨t, hres, ht⟩ := send_spec h hc v
    refine ⟨_, t, ?_, ⟨(h.of_tx hc).1, rfl, rfl⟩, ht⟩
    rw [exec, hres]
    rfl
  | dropTx =>
    obtain ⟨t, hres, ht⟩ := dropTx_spec h hc
    refine ⟨_, t, ?_, ⟨(h.of_tx hc).1, rfl, rfl⟩, ht⟩
    rw [exec, hres]
    rfl
  | poll cx =>
    obtain ⟨o, t, hres, haccepts, ht, -⟩ := poll_spec h hc cx
    exact ⟨o, t, hres, ⟨h.receiver.symm.trans hc, haccepts, rfl⟩, ht⟩
  | tryRecv =>
    obtain ⟨o, t, hres, haccepts, ht⟩ := tryRecv_spec (W := W) h hc
    refine ⟨.tried o, t, ?_, ⟨h.receiver.symm.trans hc, haccepts, rfl⟩, ht⟩
    rw [exec, hres]
    rfl
  | close =>
    obtain ⟨t, hres, ht⟩ := close_spec h hc
    refine ⟨.unit, t, ?_, ⟨h.receiver.symm.trans hc, rfl, rfl⟩, ht⟩
    rw [exec, hres]
    rfl
  | dropRx =>
    obtain ⟨t, hres, ht⟩ := dropRx_spec h hc
    refine ⟨.unit, t, ?_, ⟨h.receiver.symm.trans hc, rfl, rfl⟩, ht⟩
    rw [exec, hres]
    rfl

/-- A step of the system is one of the machine. -/
theorem step_spec [Waker W] (h : Refines s a) {e : Action T W × Answer T} (hstep : Step s e t) :
    ∃ b, Spec.Step a e b ∧ Refines t b := by
  obtain ⟨hallowed, hres⟩ := hstep
  obtain ⟨o, t', hres', hspec, ht⟩ := exec_spec h hallowed
  rw [hres] at hres'
  obtain ⟨rfl, rfl⟩ := Prod.mk.inj (Except.ok.inj hres')
  exact ⟨a.next e.1, hspec, ht⟩

/-- **Every run is a run of the machine.** -/
theorem run_spec [Waker W] {es : List (Action T W × Answer T)}
    (hrun : Run Step (channel P T W) es s) : ∃ a, Run Spec.Step Spec.new es a ∧ Refines s a :=
  hrun.simulate (R := Refines) (fun _ _ _ _ h hstep => step_spec h hstep) channel_refines

end System

/-! ### Delivery -/

/-- **Delivery**: what a run `es` from a new channel to `s` shows. -/
structure Delivery [Waker W] (es : List (Action T W × Answer T)) (s : System P T W) : Prop where
  /-- Every allowed call returns. -/
  returns : ∀ c, s.Allowed c → ∃ o t, s.exec c = .ok (o, t)
  /-- `send` takes the value over exactly when the receiver has not hung up; else it gives the value
  back. -/
  send : ∀ v o t, System.Step s (.send v, o) t →
    o = .sent (if hungUp es then .error v else .ok ())
  /-- At most one value is taken over. The first attempt to receive it gets it, and no other attempt
  gets anything. -/
  once : (accepted es).length ≤ 1
  sent : ∀ es₁ v es₂, es = es₁ ++ (.send v, .sent (.ok ())) :: es₂ → received es₁ = [] ∧
    (attempts es₂ = [] ∨ ∃ rs, attempts es₂ = some v :: rs ∧ rs.reduceOption = [])
  /-- When the value was given back, or the sender dropped, no attempt gets anything. -/
  refused : ∀ v v', (.send v, .sent (.error v')) ∈ es → received es = []
  unsent : ∀ o, (.dropTx, o) ∈ es → received es = []
  /-- There is hope only while the sender is there and the channel is open. -/
  empty : ∀ t, System.Step s (.tryRecv, .tried (.error .empty)) t →
    s.tx.isSome = true ∧ hungUp es = false
  pending : ∀ cx t, System.Step s (.poll cx, .received .pending) t →
    s.tx.isSome = true ∧ hungUp es = false
  /-- A poll panics only when the receiver has finished. -/
  unwound : ∀ cx t, System.Step s (.poll cx, .unwound) t → s.rx = some ⟨false⟩
  /-- Once `is_closed` has returned true, nothing can be sent. -/
  closed : (.isClosed, .isClosed true) ∈ es → ∀ v o t, System.Step s (.send v, o) t →
    o = .sent (.error v)
  /-- A value that was taken over and not received is still in the channel, or was dropped. -/
  owned : accepted es = received es ++ s.inner.dropped ++ s.inner.value.toList
  /-- It is not dropped before the receiver, and not kept when both ends are gone. -/
  kept : s.rx.isSome = true → s.inner.dropped = []
  freed : s.tx = none → s.rx = none → s.inner.value = none

variable [Waker W] {es es₁ es₂ : List (Action T W × Answer T)} {e : Action T W × Answer T}
  {s t : System P T W} {a : Spec T} {v v' : T} {o : Answer T}

omit [Waker W] in
/-- When the sender's call leaves the channel spent, nothing is received in all of the run. -/
theorem received_of_spends (hrun : Run Spec.Step Spec.new es a) (he : e ∈ es)
    (hspends : ∀ b c : Spec T, Spec.Step b e c →
      b.content = .awaited ∧ c.content = .spent ∧ attempt? e = none) : received es = [] := by
  obtain ⟨es₁, es₂, rfl⟩ := List.append_of_mem he
  obtain ⟨b, c, hrun₁, hstep, hrun₂⟩ := hrun.middle_inv
  obtain ⟨hb, hc, hattempt⟩ := hspends b c hstep
  rw [received_append, received_cons, (Spec.history hrun₁).awaited hb,
    Spec.received_of_spent hrun₂ hc, hattempt]
  rfl

omit [Waker W] in
theorem received_of_refused (hrun : Run Spec.Step Spec.new es a)
    (he : (.send v, .sent (.error v')) ∈ es) : received es = [] := by
  apply received_of_spends hrun he
  rintro b c ⟨hallowed, haccepts, rfl⟩
  refine ⟨hallowed, ?_, rfl⟩
  have hclosed : b.closed = true := by
    by_contra hopen
    simp [Spec.Accepts, hopen] at haccepts
  rw [Spec.next, hclosed]
  rfl

omit [Waker W] in
theorem received_of_dropTx (hrun : Run Spec.Step Spec.new es a) (he : (.dropTx, o) ∈ es) :
    received es = [] := by
  apply received_of_spends hrun he
  rintro b c ⟨hallowed, -, rfl⟩
  exact ⟨hallowed, rfl, rfl⟩

omit [Waker W] in
/-- Around an accepted value. -/
theorem attempts_of_accepted
    (hrun : Run Spec.Step Spec.new (es₁ ++ (.send v, .sent (.ok ())) :: es₂) a) :
    received es₁ = [] ∧
      (attempts es₂ = [] ∨ ∃ rs, attempts es₂ = some v :: rs ∧ rs.reduceOption = []) := by
  obtain ⟨b, c, hrun₁, ⟨hallowed, haccepts, rfl⟩, hrun₂⟩ := hrun.middle_inv
  refine ⟨(Spec.history hrun₁).awaited hallowed, ?_⟩
  have hopen : b.closed = false := by
    by_contra hclosed
    simp [Spec.Accepts, hclosed] at haccepts
  have hfull : (b.next (.send v : Action T W)).content = .full v := by
    rw [Spec.next, hopen]
    rfl
  cases Spec.drained hrun₂ hfull with
  | full hes | unread hes => exact Or.inl hes
  | read rs hes hrs => exact Or.inr ⟨rs, hes, hrs⟩

omit [Waker W] in
/-- The receiver had hung up when `is_closed` said so. -/
theorem hungUp_of_isClosed (hrun : Run Spec.Step Spec.new es a)
    (he : (.isClosed, .isClosed true) ∈ es) : hungUp es = true := by
  obtain ⟨es₁, es₂, rfl⟩ := List.append_of_mem he
  obtain ⟨b, c, hrun₁, ⟨-, haccepts, -⟩, -⟩ := hrun.middle_inv
  have hclosed : b.closed = true := (Answer.isClosed.inj haccepts).symm
  rw [(Spec.history hrun₁).closed] at hclosed
  rw [hungUp, List.any_append, ← hungUp, hclosed, Bool.true_or]

/-- **Oneshot delivers at most once, and both ends agree**, in every run of the calls of both. -/
theorem delivers_once (hrun : Run System.Step (channel P T W) es s) : Delivery es s := by
  obtain ⟨a, hspec, h⟩ := System.run_spec hrun
  have hhistory := Spec.history hspec
  have hsend : ∀ v o t, System.Step s (.send v, o) t →
      o = .sent (if hungUp es then .error v else .ok ()) := by
    intro v o t hstep
    obtain ⟨b, ⟨-, haccepts, -⟩, -⟩ := System.step_spec h hstep
    rw [← hhistory.closed]
    exact haccepts
  exact
    { returns := fun c hc => by
        obtain ⟨o, t, hres, -⟩ := System.exec_spec h hc
        exact ⟨o, t, hres⟩
      send := hsend
      once := hhistory.once
      sent := by
        rintro es₁ v es₂ rfl
        exact attempts_of_accepted hspec
      refused := fun v v' he => received_of_refused hspec he
      unsent := fun o he => received_of_dropTx hspec he
      empty := fun t hstep => by
        obtain ⟨b, ⟨-, haccepts, -⟩, -⟩ := System.step_spec h hstep
        obtain ⟨hawaited, hopen⟩ := Spec.hopeful_of_empty haccepts
        exact ⟨by rw [h.awaited hawaited]; rfl, by rw [← hhistory.closed, hopen]⟩
      pending := fun cx t hstep => by
        obtain ⟨b, ⟨-, haccepts, -⟩, -⟩ := System.step_spec h hstep
        obtain ⟨hawaited, hopen⟩ := Spec.hopeful_of_pending haccepts
        exact ⟨by rw [h.awaited hawaited]; rfl, by rw [← hhistory.closed, hopen]⟩
      unwound := fun cx t hstep => by
        obtain ⟨o, t', hres, -, -, ho⟩ := System.poll_spec h hstep.1 cx
        obtain ⟨rfl, -⟩ := Prod.mk.inj (Except.ok.inj (hres.symm.trans hstep.2))
        exact ho rfl
      closed := fun he v o t hstep => by
        rw [hsend v o t hstep, hungUp_of_isClosed hspec he, if_pos rfl]
      owned := by
        rw [h.dropped, h.value]
        exact hhistory.accepted_eq
      kept := fun hrx => by
        rw [h.dropped]
        exact hhistory.kept (h.receiver.symm.trans hrx)
      freed := fun htx hrx => by
        rw [h.value]
        apply h.value_eq
        simp [hrx] }

/-- A run in which the receiver closes the channel after the value was sent: it still gets it, and
later attempts get nothing. -/
theorem delivers_once_closed : ∃ (es : List (Action ℕ ℕ × Answer ℕ)) (s : System .w64 ℕ ℕ),
    Run System.Step (channel .w64 ℕ ℕ) es s ∧ accepted es = [7] ∧
      attempts es = [none, none, some 7, none, none] ∧ Delivery es s := by
  have hcheck : (replay (attempt System.Allowed System.exec) (channel .w64 ℕ ℕ)
      [.pollClosed 5, .poll 1, .tryRecv, .send 7, .close, .poll 2, .tryRecv, .poll 3,
        .dropRx]).map (fun r => (accepted r.1, attempts r.1)) =
        some ([7], [none, none, some 7, none, none]) := by
    decide +kernel
  obtain ⟨⟨es, s⟩, hres, hs⟩ := Option.map_eq_some_iff.mp hcheck
  obtain ⟨haccepted, hattempts⟩ := Prod.mk.inj hs
  have hrun : Run System.Step _ es s := run_of_replay (fun _ _ _ _ => of_attempt) hres
  exact ⟨es, s, hrun, haccepted, hattempts, delivers_once hrun⟩

end LocalSync.Oneshot
