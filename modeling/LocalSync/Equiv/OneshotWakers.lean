/-
  The wakers of a oneshot channel.

  What a step does to the flags and the waker slots is said once, in closed form
  (`step_touched`): a poll that returns `Pending` registers its waker, the end of
  one side wakes the other, and the last handle empties the slots.  Two results
  are read off it.

  * `waker_slots`: the slots follow their flags, and every waker that was cloned
    into a slot is dropped once.
  * `ends_notified`: neither side loses a wake-up.
-/
import LocalSync.Equiv.Oneshot

namespace LocalSync.Oneshot

open Lib

variable {P : PointerWidth} {T W : Type}

/-! ### The clones of a slot -/

namespace Task

variable {t : Task W} {isSet : Bool} {w : W}

/-- How many clones were overwritten in the slot: these are neither dropped nor in it. -/
def overwritten (t : Task W) : ℕ := t.cloned.length - (t.dropped.length + t.waker.toList.length)

/-- `set_task` overwrites the waker that is in the slot. -/
theorem overwritten_setTask (h : t.dropped.length + t.waker.toList.length ≤ t.cloned.length)
    (cx : W) : (t.setTask cx).overwritten = t.overwritten + t.waker.toList.length := by
  simp only [overwritten, setTask, List.length_append, List.length_singleton, Option.toList_some]
  omega

/-- `drop_task` does not. -/
theorem overwritten_dropTask {u : Task W} (h : t.dropTask = .ok u) :
    u.overwritten = t.overwritten := by
  obtain ⟨w, hw, h⟩ := bind_eq_ok.mp h
  obtain rfl := Except.ok.inj h
  have hwaker : t.waker = some w := by
    unfold withTask at hw
    split at hw
    · rw [← Except.ok.inj hw]
      assumption
    · cases hw
  simp [overwritten, hwaker]

theorem Sound.overwritten_eq (h : t.Sound isSet) : t.overwritten = 0 := by
  rw [overwritten, h.balance, List.length_append, Nat.sub_self]

/-- The slot holds a waker for the task of `cx`. -/
def Holds [Waker W] (t : Task W) (cx : W) : Prop :=
  ∃ w, t.waker = some w ∧ Waker.task w = Waker.task cx

theorem holds_register [Waker W] (t : Task W) (cx : W) : (t.register cx).Holds cx := by
  unfold register
  cases hw : t.waker with
  | none => exact ⟨cx, rfl, rfl⟩
  | some w =>
    show Holds (if Waker.willWake w cx then t else t.clear.setTask cx) cx
    split_ifs with hwill
    · exact ⟨w, hw, Waker.task_eq w cx hwill⟩
    · exact ⟨cx, rfl, rfl⟩

theorem Holds.wake [Waker W] {cx : W} (h : t.Holds cx) : t.wake.Holds cx := h

/-- The waker in the slot is woken. -/
theorem Holds.woken [Waker W] {cx : W} (h : t.Holds cx) :
    ∃ w, Waker.task w = Waker.task cx ∧ t.wake.woken = t.woken ++ [w] := by
  obtain ⟨w, hw, htask⟩ := h
  refine ⟨w, htask, ?_⟩
  rw [Task.wake, hw]
  rfl

end Task

/-! ### What a step does to the flags and slots -/

namespace Inner

/-- The same flags and slots. -/
structure SameSlots (x y : Inner P T W) : Prop where
  state : x.state = y.state
  tx : x.txTask = y.txTask
  rx : x.rxTask = y.rxTask

variable {x y : Inner P T W}

theorem SameSlots.rfl (x : Inner P T W) : x.SameSlots x := ⟨Eq.refl _, Eq.refl _, Eq.refl _⟩

theorem SameSlots.freed (h : x.SameSlots y) : x.freed.SameSlots y.freed :=
  ⟨h.state, congrArg Task.clear h.tx, congrArg Task.clear h.rx⟩

end Inner

namespace System

variable [Waker W] {s t u : System P T W} {a : Spec T} {c : Action T W} {o : Answer T}

/-- What a call leaves of the shared state, apart from the value, before the last handle goes. -/
def touched (s : System P T W) : Action T W → Answer T → Inner P T W
  | .pollClosed cx, .closed .pending => s.inner.registerTx cx
  | .poll cx, .received .pending => s.inner.registerRx cx
  | .send _, _ => s.inner.completed
  | .dropTx, _ => s.inner.completed
  | .close, _ => if s.rx = some ⟨true⟩ then s.inner.shut else s.inner
  | .dropRx, _ => if s.rx = some ⟨true⟩ then s.inner.shut else s.inner
  | _, _ => s.inner

/-- The flags and slots of `t` are those of `x`, unless the last handle has gone on the way. -/
structure Leaves (s : System P T W) (x : Inner P T W) (t : System P T W) : Prop where
  strong_le : t.strong ≤ s.strong
  slots : t.inner.SameSlots (if t.strong = 0 ∧ s.strong ≠ 0 then x.freed else x)

omit [Waker W] in
/-- No handle goes. -/
theorem Leaves.of_strong {x : Inner P T W} (hstrong : t.strong = s.strong)
    (h : t.inner.SameSlots x) : Leaves s x t := by
  refine ⟨hstrong.le, ?_⟩
  rw [if_neg fun hc => hc.2 (hstrong ▸ hc.1)]
  exact h

omit [Waker W] in
/-- A handle goes. -/
theorem Leaves.of_dropRc {x : Inner P T W} (hsound : u.inner.Sound) (hstrong : u.strong = s.strong)
    (hpos : s.strong ≠ 0) (h : u.inner.SameSlots x) (hres : u.dropRc = .ok t) : Leaves s x t := by
  unfold dropRc at hres
  dsimp only at hres
  rw [hstrong] at hres
  split_ifs at hres with hzero
  · rw [Inner.drop_eq hsound] at hres
    obtain rfl := Except.ok.inj hres
    refine ⟨Nat.sub_le _ _, ?_⟩
    rw [if_pos ⟨hzero, hpos⟩]
    exact h.freed
  · obtain rfl := Except.ok.inj hres
    refine ⟨Nat.sub_le _ _, ?_⟩
    rw [if_neg fun hc => hzero hc.1]
    exact h

omit [Waker W] in
theorem Refines.strong_of_tx (h : Refines s a) (htx : s.tx.isSome = true) : s.strong ≠ 0 := by
  rw [h.strong, count, if_pos (h.of_tx htx).2.1]
  omega

omit [Waker W] in
theorem Refines.strong_of_rx (h : Refines s a) (hrx : s.rx = some ⟨true⟩) : s.strong ≠ 0 := by
  rw [h.strong, count, if_pos hrx]
  omega

omit [Waker W] in
theorem send_leaves (h : Refines s a) (htx : s.tx.isSome = true) {v : T} {r : Except T Unit}
    (hres : s.send v = .ok (r, t)) : Leaves s s.inner.completed t := by
  obtain ⟨-, hsome, hsound, -⟩ := h.of_tx htx
  have hset : (s.inner.setValue v).Sound := ⟨hsound.rx, hsound.tx⟩
  have hcompleted : (s.inner.setValue v).completed.Sound := hset.completed
  rw [send, txInner_eq hsome, ok_bind] at hres
  dsimp only at hres
  rw [Inner.complete_eq hset, ok_bind] at hres
  dsimp only at hres
  split_ifs at hres
  · rw [show (s.inner.setValue v).completed.consumeValue =
      (some v, (s.inner.setValue v).completed.consumeValue.2) from Prod.ext rfl rfl] at hres
    dsimp only at hres
    obtain ⟨u, hu, hres⟩ := bind_eq_ok.mp hres
    obtain ⟨-, rfl⟩ := Prod.mk.inj (Except.ok.inj hres)
    refine .of_dropRc ?_ ?_ (h.strong_of_tx htx) ?_ hu
    · exact ⟨hcompleted.rx, hcompleted.tx⟩
    · rfl
    · exact ⟨rfl, rfl, rfl⟩
  · obtain ⟨u, hu, hres⟩ := bind_eq_ok.mp hres
    obtain ⟨-, rfl⟩ := Prod.mk.inj (Except.ok.inj hres)
    refine .of_dropRc ?_ ?_ (h.strong_of_tx htx) ?_ hu
    · exact hcompleted
    · rfl
    · exact ⟨rfl, rfl, rfl⟩

omit [Waker W] in
theorem dropTx_leaves (h : Refines s a) (htx : s.tx.isSome = true) (hres : s.dropTx = .ok t) :
    Leaves s s.inner.completed t := by
  obtain ⟨-, hsome, hsound, -⟩ := h.of_tx htx
  rw [dropTx, hsome] at hres
  dsimp only at hres
  rw [Inner.complete_eq hsound, ok_bind] at hres
  refine .of_dropRc ?_ ?_ (h.strong_of_tx htx) ?_ hres
  · exact hsound.completed
  · rfl
  · exact .rfl _

theorem pollClosed_leaves (h : Refines s a) (htx : s.tx.isSome = true) {cx : W} {r : Poll Unit}
    (hres : s.pollClosed cx = .ok (r, t)) :
    Leaves s (s.touched (.pollClosed cx) (.closed r)) t := by
  obtain ⟨-, hsome, hsound, -⟩ := h.of_tx htx
  rw [pollClosed, txInner_eq hsome, ok_bind, Inner.pollClosed_eq hsound, ok_bind] at hres
  split_ifs at hres
  · obtain ⟨rfl, rfl⟩ := Prod.mk.inj (Except.ok.inj hres)
    exact .of_strong rfl (.rfl _)
  · obtain ⟨rfl, rfl⟩ := Prod.mk.inj (Except.ok.inj hres)
    exact .of_strong rfl (.rfl _)

omit [Waker W] in
theorem finish_leaves (h : Refines s a) (hrx : s.rx = some ⟨true⟩) {y : Inner P T W}
    (hy : y.SameSlots s.inner) (hres : finish { s with inner := y } = .ok t) :
    Leaves s s.inner t := by
  have hsound := h.sound_of_rx hrx
  refine .of_dropRc ?_ ?_ (h.strong_of_rx hrx) ?_ hres
  · refine ⟨?_, ?_⟩
    · show y.rxTask.Sound y.state.isRxTaskSet
      rw [hy.rx, hy.state]
      exact hsound.rx
    · show y.txTask.Sound y.state.isTxTaskSet
      rw [hy.tx, hy.state]
      exact hsound.tx
  · rfl
  · exact hy

omit [Waker W] in
theorem tryRecv_leaves (h : Refines s a) (hrx : s.rx.isSome = true) {r : Except TryRecvError T}
    (hres : s.tryRecv = .ok (r, t)) : Leaves s s.inner t := by
  obtain ⟨⟨live⟩, hsome⟩ := Option.isSome_iff_exists.mp hrx
  cases live with
  | false =>
    rw [tryRecv, hsome] at hres
    obtain ⟨-, rfl⟩ := Prod.mk.inj (Except.ok.inj hres)
    exact .of_strong rfl (.rfl _)
  | true =>
    rw [tryRecv, hsome] at hres
    dsimp only at hres
    rw [← hsome] at hres
    split_ifs at hres
    · -- the value is taken out, and the receiver finishes
      have hsame : s.inner.consumeValue.2.SameSlots s.inner := ⟨rfl, rfl, rfl⟩
      obtain ⟨v, hv⟩ : ∃ v, s.inner.consumeValue = (v, s.inner.consumeValue.2) := ⟨_, rfl⟩
      rw [hv] at hres
      cases v with
      | none | some =>
        obtain ⟨u, hu, hres⟩ := bind_eq_ok.mp hres
        obtain ⟨-, rfl⟩ := Prod.mk.inj (Except.ok.inj hres)
        exact finish_leaves h hsome hsame hu
    · obtain ⟨u, hu, hres⟩ := bind_eq_ok.mp hres
      obtain ⟨-, rfl⟩ := Prod.mk.inj (Except.ok.inj hres)
      exact finish_leaves h hsome (.rfl _) hu
    · obtain ⟨-, rfl⟩ := Prod.mk.inj (Except.ok.inj hres)
      exact .of_strong rfl (.rfl _)

theorem poll_leaves (h : Refines s a) (hrx : s.rx.isSome = true) {cx : W}
    (hres : s.exec (.poll cx) = .ok (o, t)) : Leaves s (s.touched (.poll cx) o) t := by
  obtain ⟨⟨live⟩, hsome⟩ := Option.isSome_iff_exists.mp hrx
  cases live with
  | false =>
    rw [exec, poll, hsome] at hres
    obtain ⟨rfl, rfl⟩ := Prod.mk.inj (Except.ok.inj hres)
    exact .of_strong rfl (.rfl _)
  | true =>
    have hsound := h.sound_of_rx hsome
    have hpoll := Inner.pollRecv_eq hsound cx
    have hsame : s.inner.consumeValue.2.SameSlots s.inner := ⟨rfl, rfl, rfl⟩
    -- nothing is received, and the receiver stays
    have hstays : ∀ (r : Poll (Except RecvError T)) (y : Inner P T W),
        s.inner.pollRecv cx = .ok (r, y) → (∀ v, r ≠ .ready (.ok v)) →
        y.SameSlots (s.touched (.poll cx) (.received r)) → Leaves s (s.touched (.poll cx) o) t := by
      intro r y hpoll hr hy
      rw [exec, poll_eq hsome hpoll hr] at hres
      obtain ⟨rfl, rfl⟩ := Prod.mk.inj (Except.ok.inj hres)
      exact .of_strong rfl hy
    split_ifs at hpoll with hcomplete hclosed
    · cases hvalue : s.inner.value with
      | none =>
        rw [Inner.recvValue, show s.inner.consumeValue = (none, s.inner.consumeValue.2) from
          Prod.ext hvalue rfl] at hpoll
        exact hstays _ _ hpoll (by simp) hsame
      | some v =>
        rw [Inner.recvValue, show s.inner.consumeValue = (some v, s.inner.consumeValue.2) from
          Prod.ext hvalue rfl] at hpoll
        obtain ⟨t', hfinish, -⟩ := finish_spec (y := s.inner.consumeValue.2) h hsome
          ⟨hsound.rx, hsound.tx⟩ rfl rfl rfl fun ha => absurd ha (h.isComplete_eq.mp hcomplete)
        rw [exec, poll_eq_value hsome hpoll hfinish] at hres
        obtain ⟨rfl, rfl⟩ := Prod.mk.inj (Except.ok.inj hres)
        exact finish_leaves h hsome hsame hfinish
    · exact hstays _ _ hpoll (by simp) (.rfl _)
    · exact hstays _ _ hpoll (by simp) (.rfl _)

omit [Waker W] in
theorem close_leaves (h : Refines s a) (hrx : s.rx.isSome = true) (hres : s.close = .ok t) :
    Leaves s (if s.rx = some ⟨true⟩ then s.inner.shut else s.inner) t := by
  obtain ⟨⟨live⟩, hsome⟩ := Option.isSome_iff_exists.mp hrx
  cases live with
  | false =>
    rw [close, hsome] at hres
    obtain rfl := Except.ok.inj hres
    rw [if_neg (by simp [hsome])]
    exact .of_strong rfl (.rfl _)
  | true =>
    rw [close, hsome] at hres
    dsimp only at hres
    rw [Inner.close_eq (h.sound_of_rx hsome), ok_bind] at hres
    obtain rfl := Except.ok.inj hres
    rw [if_pos hsome]
    exact .of_strong rfl (.rfl _)

omit [Waker W] in
theorem dropRx_leaves (h : Refines s a) (hrx : s.rx.isSome = true) (hres : s.dropRx = .ok t) :
    Leaves s (if s.rx = some ⟨true⟩ then s.inner.shut else s.inner) t := by
  obtain ⟨⟨live⟩, hsome⟩ := Option.isSome_iff_exists.mp hrx
  cases live with
  | false =>
    rw [dropRx, hsome] at hres
    obtain rfl := Except.ok.inj hres
    rw [if_neg (by simp [hsome])]
    exact .of_strong rfl (.rfl _)
  | true =>
    have hsound := h.sound_of_rx hsome
    rw [dropRx, hsome] at hres
    dsimp only at hres
    rw [Inner.close_eq hsound, ok_bind] at hres
    rw [if_pos hsome]
    refine .of_dropRc ?_ ?_ (h.strong_of_rx hsome) ?_ hres
    · exact hsound.shut
    · rfl
    · exact .rfl _

/-- **What a step does** to the flags and slots. -/
theorem step_touched (h : Refines s a) (hstep : Step s (c, o) t) : Leaves s (s.touched c o) t := by
  obtain ⟨hallowed, hres⟩ := hstep
  cases c with
  | pollClosed cx =>
    obtain ⟨⟨r, u⟩, hu, hres⟩ := bind_eq_ok.mp hres
    obtain ⟨rfl, rfl⟩ := Prod.mk.inj (Except.ok.inj hres)
    exact pollClosed_leaves h hallowed hu
  | isClosed =>
    obtain ⟨r, -, hres⟩ := bind_eq_ok.mp hres
    obtain ⟨rfl, rfl⟩ := Prod.mk.inj (Except.ok.inj hres)
    exact .of_strong rfl (.rfl _)
  | send v =>
    obtain ⟨⟨r, u⟩, hu, hres⟩ := bind_eq_ok.mp hres
    obtain ⟨rfl, rfl⟩ := Prod.mk.inj (Except.ok.inj hres)
    exact send_leaves h hallowed hu
  | dropTx =>
    obtain ⟨u, hu, hres⟩ := bind_eq_ok.mp hres
    obtain ⟨rfl, rfl⟩ := Prod.mk.inj (Except.ok.inj hres)
    exact dropTx_leaves h hallowed hu
  | poll cx => exact poll_leaves h hallowed hres
  | tryRecv =>
    obtain ⟨⟨r, u⟩, hu, hres⟩ := bind_eq_ok.mp hres
    obtain ⟨rfl, rfl⟩ := Prod.mk.inj (Except.ok.inj hres)
    exact tryRecv_leaves h hallowed hu
  | close =>
    obtain ⟨u, hu, hres⟩ := bind_eq_ok.mp hres
    obtain ⟨rfl, rfl⟩ := Prod.mk.inj (Except.ok.inj hres)
    exact close_leaves h hallowed hu
  | dropRx =>
    obtain ⟨u, hu, hres⟩ := bind_eq_ok.mp hres
    obtain ⟨rfl, rfl⟩ := Prod.mk.inj (Except.ok.inj hres)
    exact dropRx_leaves h hallowed hu

theorem touched_sound (h : s.inner.Sound) (c : Action T W) (o : Answer T) :
    (s.touched c o).Sound := by
  unfold touched
  split
  · exact h.registerTx _
  · exact h.registerRx _
  · exact h.completed
  · exact h.completed
  · split_ifs
    · exact h.shut
    · exact h
  · split_ifs
    · exact h.shut
    · exact h
  · exact h

/-- Once the last handle has gone, nothing is touched. -/
theorem touched_of_strong (h : Refines s a) (hzero : s.strong = 0) (hstep : Step s (c, o) t) :
    s.touched c o = s.inner := by
  obtain ⟨hallowed, hres⟩ := hstep
  have hrx : s.rx ≠ some ⟨true⟩ := fun hrx => h.strong_of_rx hrx hzero
  cases c with
  | pollClosed | isClosed | send | dropTx => exact absurd hzero (h.strong_of_tx hallowed)
  | poll cx =>
    obtain ⟨⟨live⟩, hsome⟩ := Option.isSome_iff_exists.mp hallowed
    cases live with
    | true => exact absurd hsome hrx
    | false =>
      rw [exec, poll, hsome] at hres
      obtain ⟨rfl, -⟩ := Prod.mk.inj (Except.ok.inj hres)
      rfl
  | tryRecv => rfl
  | close | dropRx => exact if_neg hrx

/-! ### The slots -/

/-- The slots are empty, and each clone has been dropped. -/
structure Emptied (s : System P T W) : Prop where
  rx : s.inner.rxTask.Sound false
  tx : s.inner.txTask.Sound false

theorem emptied_of_step (h : Refines s a) (hs : s.strong = 0 → Emptied s)
    (hstep : Step s (c, o) t) (ht : t.strong = 0) : Emptied t := by
  have hslots := (step_touched h hstep).slots
  by_cases hzero : s.strong = 0
  · rw [if_neg fun hc => hc.2 hzero, touched_of_strong h hzero hstep] at hslots
    refine ⟨?_, ?_⟩
    · rw [hslots.rx]
      exact (hs hzero).rx
    · rw [hslots.tx]
      exact (hs hzero).tx
  · rw [if_pos ⟨ht, hzero⟩] at hslots
    have hsound := touched_sound (h.sound hzero) c o
    refine ⟨?_, ?_⟩
    · rw [hslots.rx]
      exact hsound.rx.clear
    · rw [hslots.tx]
      exact hsound.tx.clear

/-- **The slots follow their flags**, and every clone is dropped once. -/
structure SlotsFollow (s : System P T W) : Prop where
  /-- While the shared state is there, a flag is set exactly when its slot is full. -/
  rx : s.strong ≠ 0 → (s.inner.state.isRxTaskSet = true ↔ s.inner.rxTask.waker.isSome = true)
  tx : s.strong ≠ 0 → (s.inner.state.isTxTaskSet = true ↔ s.inner.txTask.waker.isSome = true)
  /-- No call reads an empty slot: every call that is allowed returns. -/
  returns : ∀ c, s.Allowed c → ∃ o t, s.exec c = .ok (o, t)
  /-- No waker was overwritten in its slot. -/
  overwritten : s.inner.rxTask.overwritten = 0 ∧ s.inner.txTask.overwritten = 0
  /-- Every clone has been dropped once, or is in the slot. -/
  cloned_rx : s.inner.rxTask.cloned = s.inner.rxTask.dropped ++ s.inner.rxTask.waker.toList
  cloned_tx : s.inner.txTask.cloned = s.inner.txTask.dropped ++ s.inner.txTask.waker.toList
  /-- The shared state goes with the last handle, and leaves no clone behind. -/
  last : s.tx = none → s.rx = none → s.strong = 0
  freed : s.strong = 0 → s.inner.rxTask.cloned = s.inner.rxTask.dropped ∧
    s.inner.txTask.cloned = s.inner.txTask.dropped

theorem Refines.slotsFollow (h : Refines s a) (hs : s.strong = 0 → Emptied s) : SlotsFollow s := by
  obtain ⟨rxSet, hrx⟩ : ∃ isSet, s.inner.rxTask.Sound isSet := by
    by_cases hzero : s.strong = 0
    · exact ⟨_, (hs hzero).rx⟩
    · exact ⟨_, (h.sound hzero).rx⟩
  obtain ⟨txSet, htx⟩ : ∃ isSet, s.inner.txTask.Sound isSet := by
    by_cases hzero : s.strong = 0
    · exact ⟨_, (hs hzero).tx⟩
    · exact ⟨_, (h.sound hzero).tx⟩
  constructor
  · intro hne
    rw [(h.sound hne).rx.isSet]
  · intro hne
    rw [(h.sound hne).tx.isSet]
  · intro c hc
    obtain ⟨o, t, hres, -⟩ := exec_spec h hc
    exact ⟨o, t, hres⟩
  · exact ⟨hrx.overwritten_eq, htx.overwritten_eq⟩
  · exact hrx.balance
  · exact htx.balance
  · intro htx hrx
    rw [h.strong, count, htx, hrx]
    rfl
  · intro hzero
    have hrx := (hs hzero).rx
    have htx := (hs hzero).tx
    have hbalance := hrx.balance
    have hbalance' := htx.balance
    rw [hrx.waker_eq, Option.toList_none, List.append_nil] at hbalance
    rw [htx.waker_eq, Option.toList_none, List.append_nil] at hbalance'
    exact ⟨hbalance, hbalance'⟩

end System

variable [Waker W] {es : List (Action T W × Answer T)} {s : System P T W}

/-- Every run keeps the slots in step with the machine. -/
theorem run_emptied (hrun : Run System.Step (channel P T W) es s) :
    ∃ a, Run Spec.Step Spec.new es a ∧ System.Refines s a ∧ (s.strong = 0 → s.Emptied) := by
  refine hrun.simulate
    (R := fun s (a : Spec T) => System.Refines s a ∧ (s.strong = 0 → s.Emptied)) ?_
    ⟨System.channel_refines, fun hzero => absurd hzero two_ne_zero⟩
  rintro s ⟨c, o⟩ t a ⟨h, hs⟩ hstep
  obtain ⟨b, hspec, ht⟩ := System.step_spec h hstep
  exact ⟨b, hspec, ht, System.emptied_of_step h hs hstep⟩

/-- **The waker slots follow their flags** in every run, up to the end of the channel and beyond. -/
theorem waker_slots (hrun : Run System.Step (channel P T W) es s) : System.SlotsFollow s := by
  obtain ⟨a, -, h, hs⟩ := run_emptied hrun
  exact h.slotsFollow hs

/-- A run in which both sides change their wakers, and the channel goes with the receiver. -/
theorem waker_slots_changed : ∃ (es : List (Action ℕ ℕ × Answer ℕ)) (s : System .w64 ℕ ℕ),
    Run System.Step (channel .w64 ℕ ℕ) es s ∧ s.strong = 0 ∧
      s.inner.rxTask.dropped = [1, 2] ∧ s.inner.txTask.dropped = [5, 6] ∧
      System.SlotsFollow s := by
  have hcheck : (replay (attempt System.Allowed System.exec) (channel .w64 ℕ ℕ)
      [.poll 1, .pollClosed 5, .poll 2, .pollClosed 6, .poll 2, .send 7, .dropRx]).map
      (fun r => (r.2.strong, r.2.inner.rxTask.dropped, r.2.inner.txTask.dropped)) =
        some (0, [1, 2], [5, 6]) := by
    decide +kernel
  obtain ⟨⟨es, s⟩, hres, hs⟩ := Option.map_eq_some_iff.mp hcheck
  obtain ⟨hstrong, hs⟩ := Prod.mk.inj hs
  obtain ⟨hrx, htx⟩ := Prod.mk.inj hs
  have hrun : Run System.Step _ es s := run_of_replay (fun _ _ _ _ => of_attempt) hres
  exact ⟨es, s, hrun, hstrong, hrx, htx, waker_slots hrun⟩

/-! ### The wake-ups -/

/-- The receiver is polled with this call. -/
def Action.pollsRx : Action T W → Bool
  | .poll _ => true
  | _ => false

/-- The sender is polled with this call. -/
def Action.pollsTx : Action T W → Bool
  | .pollClosed _ => true
  | _ => false

/-- The sender sends or is dropped with this call. -/
def Action.endsTx : Action T W → Bool
  | .send _ | .dropTx => true
  | _ => false

namespace System

/-- The waker `w` was registered by the receiver, and the calls `es` have led to `s` since: it is in
its slot, and the end of the sender wakes it, unless the receiver has closed the channel. -/
structure RxAwaits (w : W) (es : List (Action T W × Answer T)) (s : System P T W) : Prop where
  registered : s.strong ≠ 0 → s.inner.state.isRxTaskSet = true ∧ s.inner.rxTask.Holds w
  woken : hungUp es = false → ∀ c o t, Step s (c, o) t → c.endsTx = true →
    ∃ w', Waker.task w' = Waker.task w ∧ t.inner.rxTask.woken = s.inner.rxTask.woken ++ [w']

/-- The waker `w` was registered by the sender, and the calls `es` have led to `s` since: it is in
its slot, and the first call that closes the channel wakes it. -/
structure TxAwaits (w : W) (es : List (Action T W × Answer T)) (s : System P T W) : Prop where
  registered : s.inner.state.isTxTaskSet = true ∧ s.inner.txTask.Holds w
  woken : hungUp es = false → ∀ c o t, Step s (c, o) t → c.hangsUp = true →
    ∃ w', Waker.task w' = Waker.task w ∧ t.inner.txTask.woken = s.inner.txTask.woken ++ [w']

/-- **No side loses a wake-up**: what holds after every poll that returns `Pending`, until the next
poll of that side. -/
structure Notified [Waker W] (s : System P T W) : Prop where
  rx : ∀ w t es u, Step s (.poll w, .received .pending) t → Run Step t es u →
    (∀ e ∈ es, e.1.pollsRx = false) → RxAwaits w es u
  tx : ∀ w t es u, Step s (.pollClosed w, .closed .pending) t → Run Step t es u →
    (∀ e ∈ es, e.1.pollsTx = false) → u.tx.isSome = true → TxAwaits w es u

variable {s t u : System P T W} {a : Spec T} {c : Action T W} {o : Answer T} {w : W}
  {es : List (Action T W × Answer T)}

/-- What the other calls do to the receiver's slot. -/
theorem touched_rx (hc : c.pollsRx = false) (o : Answer T) :
    (s.touched c o).state.isRxTaskSet = s.inner.state.isRxTaskSet ∧
      (s.touched c o).rxTask = if c.endsTx && !s.inner.state.isClosed then s.inner.rxTask.wake
        else s.inner.rxTask := by
  unfold touched
  split
  · exact ⟨(State.setTxTask_flags _).2.1, rfl⟩
  · cases hc
  · refine ⟨(State.setComplete_flags _).2.1, ?_⟩
    cases hclosed : s.inner.state.isClosed <;> simp [Inner.completed, Action.endsTx, hclosed]
  · refine ⟨(State.setComplete_flags _).2.1, ?_⟩
    cases hclosed : s.inner.state.isClosed <;> simp [Inner.completed, Action.endsTx, hclosed]
  · by_cases hrx : s.rx = some ⟨true⟩
    · rw [if_pos hrx]
      exact ⟨(State.setClosed_flags _).2.1, rfl⟩
    · rw [if_neg hrx]
      exact ⟨rfl, rfl⟩
  · by_cases hrx : s.rx = some ⟨true⟩
    · rw [if_pos hrx]
      exact ⟨(State.setClosed_flags _).2.1, rfl⟩
    · rw [if_neg hrx]
      exact ⟨rfl, rfl⟩
  · refine ⟨rfl, ?_⟩
    cases c <;> simp_all [Action.endsTx]

/-- What the other calls do to the sender's slot. -/
theorem touched_tx (hc : c.pollsTx = false) (o : Answer T) :
    (s.touched c o).state.isTxTaskSet = s.inner.state.isTxTaskSet ∧
      (s.touched c o).txTask =
        if c.hangsUp && s.rx == some ⟨true⟩ && !s.inner.state.isComplete then s.inner.txTask.wake
        else s.inner.txTask := by
  unfold touched
  split
  · cases hc
  · exact ⟨(State.setRxTask_flags _).2.2.2, rfl⟩
  · exact ⟨(State.setComplete_flags _).2.2.2, rfl⟩
  · exact ⟨(State.setComplete_flags _).2.2.2, rfl⟩
  · by_cases hrx : s.rx = some ⟨true⟩
    · rw [if_pos hrx]
      refine ⟨(State.setClosed_flags _).2.2.2, ?_⟩
      cases hcomplete : s.inner.state.isComplete <;>
        simp [Inner.shut, Action.hangsUp, hrx, hcomplete]
    · simp [hrx]
  · by_cases hrx : s.rx = some ⟨true⟩
    · rw [if_pos hrx]
      refine ⟨(State.setClosed_flags _).2.2.2, ?_⟩
      cases hcomplete : s.inner.state.isComplete <;>
        simp [Inner.shut, Action.hangsUp, hrx, hcomplete]
    · simp [hrx]
  · refine ⟨rfl, ?_⟩
    cases c <;> simp_all [Action.hangsUp]

/-! ### Registration

A waker stays registered until the next poll of the same side: the other calls wake it at most. -/

/-- As long as `Inner` exists, `flag` is set and `slot` holds the waker `w`. -/
def Registered (flag : State P → Bool) (slot : Inner P T W → Task W) (w : W)
    (s : System P T W) : Prop :=
  s.strong ≠ 0 → flag s.inner.state = true ∧ (slot s.inner).Holds w

section Registered

variable {flag : State P → Bool} {slot : Inner P T W → Task W} {x : Inner P T W}

/-- A call that registers the waker. -/
theorem Leaves.registered (h : Leaves s x t) (hslot : ∀ y z, y.SameSlots z → slot y = slot z)
    (hset : flag x.state = true) (hholds : (slot x).Holds w) : Registered flag slot w t := by
  intro hne
  have hslots := h.slots
  rw [if_neg fun hf => hne hf.1] at hslots
  rw [hslots.state, hslot _ _ hslots]
  exact ⟨hset, hholds⟩

/-- A call that wakes the slot at most. -/
theorem Registered.of_leaves (hs : Registered flag slot w s) (h : Leaves s x t)
    (hslot : ∀ y z, y.SameSlots z → slot y = slot z) {wakes : Bool}
    (hx : flag x.state = flag s.inner.state ∧
      slot x = if wakes then (slot s.inner).wake else slot s.inner) : Registered flag slot w t := by
  intro hne
  have hle := h.strong_le
  obtain ⟨hset, hholds⟩ := hs (by omega)
  refine h.registered hslot (hx.1.trans hset) ?_ hne
  rw [hx.2]
  split_ifs
  · exact hholds.wake
  · exact hholds

end Registered

theorem rx_of_step (h : Refines s a) (hstep : Step s (c, o) t) (hc : c.pollsRx = false)
    (hs : Registered State.isRxTaskSet Inner.rxTask w s) :
    Registered State.isRxTaskSet Inner.rxTask w t :=
  hs.of_leaves (step_touched h hstep) (fun _ _ => Inner.SameSlots.rx) (touched_rx hc o)

theorem tx_of_step (h : Refines s a) (hstep : Step s (c, o) t) (hc : c.pollsTx = false)
    (hs : Registered State.isTxTaskSet Inner.txTask w s) :
    Registered State.isTxTaskSet Inner.txTask w t :=
  hs.of_leaves (step_touched h hstep) (fun _ _ => Inner.SameSlots.tx) (touched_tx hc o)

/-- What all calls but some keep is kept by a run without those. -/
theorem run_keeps {K : System P T W → Prop} {p : Action T W → Bool}
    (hK : ∀ s a c o t, Refines s a → Step s (c, o) t → p c = false → K s → K t)
    (h : Refines t a) (hrun : Run Step t es u) (hes : ∀ e ∈ es, p e.1 = false) (ht : K t) :
    K u := by
  suffices K u ∧ ∃ b, Refines u b from this.1
  induction hrun with
  | nil => exact ⟨ht, a, h⟩
  | @snoc es e v u hrun hstep ih =>
    obtain ⟨hv, b, hb⟩ := ih fun e he => hes e (List.mem_append_left _ he)
    obtain ⟨d, -, hd⟩ := step_spec hb hstep
    have he := hes e (List.mem_append_right _ (List.mem_singleton_self e))
    exact ⟨hK v b e.1 e.2 u hb hstep he hv, d, hd⟩

omit [Waker W] in
/-- The last handle does not take the log of a slot with it. -/
theorem Leaves.woken_eq {x : Inner P T W} (h : Leaves s x t) :
    t.inner.rxTask.woken = x.rxTask.woken ∧ t.inner.txTask.woken = x.txTask.woken := by
  have hslots := h.slots
  split_ifs at hslots
  · rw [hslots.rx, hslots.tx]
    exact ⟨rfl, rfl⟩
  · rw [hslots.rx, hslots.tx]
    exact ⟨rfl, rfl⟩

theorem Refines.rxAwaits (h : Refines s a) (hopen : a.closed = hungUp es)
    (hs : Registered State.isRxTaskSet Inner.rxTask w s) : RxAwaits w es s where
  registered := hs
  woken hes c o t hstep hc := by
    have hpolls : c.pollsRx = false := by cases c <;> first | rfl | cases hc
    have htx : s.tx.isSome = true := by
      have hallowed := hstep.1
      cases c <;> first | exact hallowed | cases hc
    obtain ⟨-, -, -, -, hclosed, -⟩ := h.of_tx htx
    obtain ⟨w', htask, hwoken⟩ := (hs (h.strong_of_tx htx)).2.woken
    refine ⟨w', htask, ?_⟩
    rw [(step_touched h hstep).woken_eq.1, (touched_rx hpolls o).2, hclosed, hopen, hes, hc]
    exact hwoken

theorem Refines.txAwaits (h : Refines s a) (hopen : a.closed = hungUp es)
    (hs : Registered State.isTxTaskSet Inner.txTask w s) (htx : s.tx.isSome = true) :
    TxAwaits w es s where
  registered := hs (h.strong_of_tx htx)
  woken hes c o t hstep hc := by
    have hpolls : c.pollsTx = false := by cases c <;> first | rfl | cases hc
    obtain ⟨hawaited, -, -, hcomplete, -⟩ := h.of_tx htx
    -- a receiver that has finished would have closed the channel
    have hrx : s.rx = some ⟨true⟩ := by
      by_contra hne
      rw [h.finished hne hawaited, hes] at hopen
      cases hopen
    obtain ⟨w', htask, hwoken⟩ := (hs (h.strong_of_tx htx)).2.woken
    refine ⟨w', htask, ?_⟩
    rw [(step_touched h hstep).woken_eq.2, (touched_tx hpolls o).2, hcomplete, hc, hrx]
    exact hwoken

end System

namespace Spec

variable {a b : Spec T} {e : Action T W × Answer T} {es : List (Action T W × Answer T)}

omit [Waker W] in
/-- Only the receiver closes the channel. -/
theorem closed_of_step (h : Step a e b) : b.closed = (a.closed || e.1.hangsUp) := by
  cases move_of_step h with
  | looks _ _ hhangs | accepts _ _ _ hhangs | ends _ _ hhangs => simp [hhangs]
  | receives _ _ hhangs => simp [hhangs, take]
  | closes _ _ hhangs => simp [hhangs]
  | leaves _ _ hhangs => simp [hhangs, leave]

omit [Waker W] in
theorem closed_of_run (h : Run Step a es b) : b.closed = (a.closed || hungUp es) := by
  induction h with
  | nil => exact (Bool.or_false _).symm
  | snoc _ hstep ih => rw [closed_of_step hstep, ih, hungUp_snoc, Bool.or_assoc]

end Spec

/-- Since a call that left the channel open, only the receiver has closed it. -/
theorem System.Refines.closed_since {s t u : System P T W} {a : Spec T} {c : Action T W}
    {o : Answer T} {es : List (Action T W × Answer T)} (h : Refines s a) (hstep : Step s (c, o) t)
    (hopen : a.closed = false) (hc : c.hangsUp = false) (hrun : Run Step t es u) :
    ∃ b d, Refines t b ∧ Refines u d ∧ d.closed = hungUp es := by
  obtain ⟨b, hspec, ht⟩ := step_spec h hstep
  obtain ⟨d, hd, hu⟩ := hrun.simulate (fun _ _ _ _ hs hstep => step_spec hs hstep) ht
  refine ⟨b, d, ht, hu, ?_⟩
  rw [Spec.closed_of_run hd, Spec.closed_of_step hspec, hopen, hc]
  rfl

/-- **Neither side loses a wake-up**, in any run of the calls of both. -/
theorem ends_notified {es : List (Action T W × Answer T)} {s : System P T W}
    (hrun : Run System.Step (channel P T W) es s) : System.Notified s := by
  obtain ⟨a, -, h⟩ := System.run_spec hrun
  constructor
  · intro w t es' u hstep hrun' hes
    have hregistered := (System.step_touched h hstep).registered (fun _ _ => Inner.SameSlots.rx)
      (State.setRxTask_flags _).2.1 (Task.holds_register _ w)
    obtain ⟨_, hspec, -⟩ := System.step_spec h hstep
    have hopen := (Spec.hopeful_of_pending hspec.2.1).2
    obtain ⟨b, d, ht, hu, hclosed⟩ := h.closed_since hstep hopen rfl hrun'
    exact hu.rxAwaits hclosed (System.run_keeps (p := Action.pollsRx)
      (fun _ _ _ _ _ hs hstep hc hk => System.rx_of_step hs hstep hc hk) ht hrun' hes hregistered)
  · intro w t es' u hstep hrun' hes htx
    have hregistered := (System.step_touched h hstep).registered (fun _ _ => Inner.SameSlots.tx)
      (State.setTxTask_flags _).2.2.2 (Task.holds_register _ w)
    obtain ⟨_, hspec, -⟩ := System.step_spec h hstep
    have hopen : a.closed = false := by
      by_contra hc
      have haccepts := hspec.2.1
      simp [Spec.Accepts, hc] at haccepts
    obtain ⟨b, d, ht, hu, hclosed⟩ := h.closed_since hstep hopen rfl hrun'
    refine hu.txAwaits hclosed (System.run_keeps (p := Action.pollsTx)
      (fun _ _ _ _ _ hs hstep hc hk => System.tx_of_step hs hstep hc hk) ht hrun' hes hregistered)
      htx

/-- A run in which both sides wait, having changed their wakers. -/
theorem ends_notified_waiting : ∃ (es : List (Action ℕ ℕ × Answer ℕ)) (s : System .w64 ℕ ℕ),
    Run System.Step (channel .w64 ℕ ℕ) es s ∧ s.inner.rxTask.waker = some 2 ∧
      s.inner.txTask.waker = some 6 ∧ System.Notified s := by
  have hcheck : (replay (attempt System.Allowed System.exec) (channel .w64 ℕ ℕ)
      [.poll 1, .pollClosed 5, .tryRecv, .poll 2, .pollClosed 6]).map
      (fun r => (r.2.inner.rxTask.waker, r.2.inner.txTask.waker)) = some (some 2, some 6) := by
    decide +kernel
  obtain ⟨⟨es, s⟩, hres, hs⟩ := Option.map_eq_some_iff.mp hcheck
  obtain ⟨hrx, htx⟩ := Prod.mk.inj hs
  have hrun : Run System.Step _ es s := run_of_replay (fun _ _ _ _ => of_attempt) hres
  exact ⟨es, s, hrun, hrx, htx, ends_notified hrun⟩

end LocalSync.Oneshot
