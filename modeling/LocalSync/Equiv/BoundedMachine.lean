/-
  The bounded channel is its machine.

  The gate of the machine shows the semaphore (`ShowsSlots`), and a send does at
  the gate what it does at the semaphore (`Turnstile.ask_spec`).  With the calls
  on the handles (`Handles.exec_follows`), the channel follows its machine
  (`Channel.bounded_follows_machine`).
-/
import LocalSync.Equiv.Capacity
import LocalSync.Equiv.Machine
import LocalSync.Equiv.Turnstile

namespace LocalSync.Mpsc

open Lib
open LocalSync.Semaphore (Fair Inner Tracked Slots Turnstile)

variable {P : PointerWidth} {T W : Type}

namespace Bounded

variable [Waker W]

/-- The semaphore of a channel with `b` slots, as the turnstile shows it. -/
def ShowsSlots (b : ℕ) (p : Addr → Bool) (x : Tracked P W) (g : Turnstile) (n : ℕ) : Prop :=
  ∃ a, Slots b p a x n ∧ Turnstile.Shows p a g

theorem showsSlots_tallies {b : ℕ} (hb : b ≤ Inner.maxPermits P) (p : Addr → Bool) :
    Tallies (ShowsSlots b p : Tracked P W → Turnstile → ℕ → Prop) where
  isClosed x g n h := by
    obtain ⟨a, hs, hg⟩ := h
    exact hs.isClosed.trans hg.isShut
  addPermits x g n k h := by
    obtain ⟨a, hs, hg⟩ := h
    obtain ⟨y, hres, hy⟩ := hs.release hb
    exact ⟨y, congrArg Inner.Outcome.fault hres, _, hy, hg.give hb hs⟩
  close x g n h := by
    obtain ⟨a, hs, hg⟩ := h
    obtain ⟨y, hres, hy⟩ := hs.close
    exact ⟨y, congrArg Inner.Outcome.fault hres, _, hy, hg.shut hs.models.sound⟩

namespace Channel

/-- **The channel is as the machine has it.** -/
structure Follows (b : ℕ) (s : Channel P T W) (a : Machine T) : Prop where
  base : s.handles.Follows (ShowsSlots b s.suspended) a.base
  sends : s.sends = a.sends
  /-- A send borrows a `Tx` that is alive. -/
  borrowed : ∀ i f, s.sends.get? i = some f → f.tx ∈ s.handles.txs

variable {b : ℕ} {s t : Channel P T W} {a : Machine T} {i : Addr} {tx : ℕ} {v : T}

theorem Follows.inv (h : Follows b s a) : Inv b s a.base.queue where
  handles := h.base.inv.setRelation (by
    obtain ⟨c, hs, -⟩ := h.base.inv.semaphore
    exact ⟨c, hs⟩)
  borrowed := h.borrowed

theorem new_follows (hb : b ≤ Inner.maxPermits P) :
    Follows b (Channel.new P T W b) (Machine.new T b) where
  base := by
    have hnone : (Channel.new P T W b).suspended = fun _ => false := by
      funext i
      simp [suspended, Channel.new]
    rw [hnone]
    exact Handles.new_follows ⟨Fair.new W b, .new hb, Turnstile.new_shows b⟩
  sends := rfl
  borrowed i f hf := by simp [Channel.new] at hf

/-- A call through a handle. -/
theorem call_follows (hb : b ≤ Inner.maxPermits P) (h : Follows b s a) {c : Call W}
    (hc : s.Allowed (.call c)) :
    ∃ t, s.exec (.call c) = .ok ((a.base.call c).1, t) ∧
      Follows b t { a with base := (a.base.call c).2 } := by
  have hallowed : s.handles.Allowed c := by
    cases c with
    | dropTx tx => exact hc.1
    | _ => exact hc
  obtain ⟨t, hres, ht⟩ := Handles.exec_follows (showsSlots_tallies hb _) h.base hallowed
  have hexec : s.exec (.call c) = .ok ((a.base.call c).1, { s with handles := t }) := by
    rw [exec, hres]
    rfl
  obtain ⟨o, t', ys, hres', hinv, -⟩ := call_spec hb h.inv hc
  obtain ⟨-, rfl⟩ := Prod.mk.inj (Except.ok.inj (hres'.symm.trans hexec))
  exact ⟨_, hexec, ht, h.sends, hinv.borrowed⟩

omit [Waker W] in
/-- A send that has not been polled does not wait. -/
theorem suspended_create (hi : s.sends.get? i = none) (tx : ℕ) (v : T) :
    (s.setStage i tx (.unresumed v)).suspended = s.suspended := by
  funext j
  rw [suspended_setStage]
  split_ifs with hj
  · subst hj
    simp [suspended, hi]
  · rfl

/-- Creating a send. -/
theorem send_follows (h : Follows b s a) (htx : tx ∈ s.handles.txs)
    (hi : s.sends.get? i = none) (v : T) :
    Follows b (s.setStage i tx (.unresumed v)) (a.setStage i tx (.unresumed v)) where
  base := by
    rw [suspended_create hi]
    exact h.base
  sends := congrArg (fun sends => sends.insert i { tx, stage := .unresumed v }) h.sends
  borrowed := h.inv.borrowed_setStage htx _

/-- **The body of a send.** -/
theorem resume_follows (hb : b ≤ Inner.maxPermits P) (h : Follows b s a)
    (htx : tx ∈ s.handles.txs) {first : Bool} (hi : s.suspended i = !first) (v : T) (cx : W) :
    ∃ t, s.resume i tx v first cx = .ok ((a.resume i tx v first).1, t) ∧
      Follows b t (a.resume i tx v first).2 := by
  have hf := h.base.inv.flow
  obtain ⟨c, hs, hg⟩ := h.base.inv.semaphore
  obtain ⟨y, d, hres, hy⟩ := Turnstile.ask_spec hg hs hb hi cx
  have hshut := Turnstile.isShut_ask a.base.gate i first
  have hborrowed := h.inv.borrowed_setStage (i := i) htx
  have hacq : acquireSlot s.handles.chan i first cx =
      .ok ((a.base.gate.ask i first).1, { s.handles.chan with semaphore := y }) := by
    rw [acquireSlot, hres]
    rfl
  have hinsert : ∀ stage : Stage T, s.sends.insert i { tx, stage } =
      a.sends.insert i { tx, stage } := fun stage =>
    congrArg (fun sends => sends.insert i { tx, stage }) h.sends
  have hflow : y.inner.isClosed = a.base.gate.isShut → Handles.Flow { s.handles with
      chan := { s.handles.chan with semaphore := y } } a.base.queue := fun hclosed =>
    hf.setSemaphore (hclosed.trans (h.base.isClosed (showsSlots_tallies hb _)).symm)
  rw [resume, hacq, ok_bind, Machine.resume]
  generalize a.base.gate.ask i first = ga at hy hshut
  obtain ⟨(e | u) | _, g⟩ := ga
  · obtain ⟨hclosed, hslots, hshows⟩ := hy
    rw [← suspended_return s i tx] at hslots hshows
    rw [if_pos (hclosed.mpr (by cases e; rfl))] at hslots
    have hflow' := hflow (hslots.isClosed.trans (hshows.isShut.trans hshut))
    exact ⟨_, rfl, ⟨⟨hflow', ⟨d, hslots, hshows⟩, h.base.inv.queue, h.base.inv.freed⟩, h.base.txs,
      h.base.rx⟩, hinsert .returned, hborrowed _⟩
  · obtain ⟨hclosed, hslots, hshows⟩ := hy
    have hopen : ¬ a.base.gate.isShut = true := fun hc => by cases hclosed.mp hc
    rw [← suspended_return s i tx] at hslots hshows
    rw [if_neg hopen] at hslots
    have hisClosed := hslots.isClosed.trans (hshows.isShut.trans hshut)
    have hflow' := hflow hisClosed
    obtain ⟨u, hsend, hflow'', hqueue', hsem, htxs, hrx, -⟩ :=
      Handles.send_open hflow' (h.base.inv.queue (Or.inl ⟨tx, htx⟩))
        (hisClosed.trans (Bool.not_eq_true _ ▸ hopen)) v
    refine ⟨({ s with handles := u } : Channel P T W).setStage i tx .returned, ?_,
      ⟨⟨hflow'', ?_, fun _ => hqueue', ?_⟩, htxs.trans h.base.txs, hrx.trans h.base.rx⟩,
      hinsert .returned, ?_⟩
    · simp only [hsend]
      rfl
    · show ShowsSlots b _ u.chan.semaphore g (a.base.queue ++ [v]).length
      rw [hsem, List.length_append]
      exact ⟨d, hslots, hshows⟩
    · exact fun hn => absurd (Or.inl ⟨tx, htxs ▸ htx⟩) hn
    · intro j f hget
      show f.tx ∈ u.txs
      rw [htxs]
      exact hborrowed .returned j f hget
  · obtain ⟨hslots, hshows⟩ := hy
    rw [← suspended_suspend s i tx v] at hslots hshows
    have hflow' := hflow (hslots.isClosed.trans (hshows.isShut.trans hshut))
    exact ⟨_, rfl, ⟨⟨hflow', ⟨d, hslots, hshows⟩, h.base.inv.queue, h.base.inv.freed⟩, h.base.txs,
      h.base.rx⟩, hinsert (.suspended v), hborrowed _⟩

/-- **Polling a send.** -/
theorem poll_follows (hb : b ≤ Inner.maxPermits P) (h : Follows b s a)
    (hu : s.unfinished i = true) (cx : W) :
    ∃ t, s.pollSend i cx = .ok ((a.poll i).1, t) ∧ Follows b t (a.poll i).2 := by
  rw [pollSend, Machine.poll, ← h.sends]
  cases hf : s.sends.get? i with
  | none => simp [unfinished, hf] at hu
  | some f =>
    have htx := h.borrowed i f hf
    obtain ⟨tx, stage⟩ := f
    cases stage with
    | unresumed v => exact resume_follows hb h htx (by simp [suspended, hf]) v cx
    | suspended v => exact resume_follows hb h htx (by simp [suspended, hf]) v cx
    | returned => simp [unfinished, hf, Stage.value] at hu

/-- **Dropping a send**, wherever it stands. -/
theorem drop_follows (hb : b ≤ Inner.maxPermits P) (h : Follows b s a)
    (hi : (s.sends.get? i).isSome = true) :
    ∃ t, s.dropSend i = .ok t ∧ Follows b t (a.drop i) := by
  obtain ⟨t, hres, hinv, -⟩ := drop_spec hb h.inv hi
  refine ⟨t, hres, ?_⟩
  have hsusp := suspended_erase s i
  have hsends : s.sends.erase i = a.sends.erase i := congrArg (Store.erase · i) h.sends
  obtain ⟨⟨tx, stage⟩, hf⟩ := Option.isSome_iff_exists.mp hi
  rw [Machine.drop, ← h.sends, hf]
  cases stage with
  | unresumed v | returned =>
    rw [Semaphore.resumed_eq_self (by simp [suspended, hf])] at hsusp
    simp only [dropSend, hf] at hres
    obtain rfl := Except.ok.inj hres
    refine ⟨?_, rfl, hinv.borrowed⟩
    rw [hsusp]
    exact h.base
  | suspended v =>
    have hp : s.suspended i = true := by simp [suspended, hf]
    obtain ⟨c, hs, hg⟩ := h.base.inv.semaphore
    obtain ⟨y, hdrop, hy⟩ := hs.drop hb hp
    have hdropSend : s.dropSend i = .ok
        { handles := { s.handles with chan := { s.handles.chan with semaphore := y } }
          sends := s.sends.erase i } := by
      simp only [dropSend, hf, hdrop]
      rfl
    obtain rfl := Except.ok.inj (hres.symm.trans hdropSend)
    rw [← hsusp] at hy
    have hleave := hg.leave hs hp
    rw [← hsusp] at hleave
    exact ⟨⟨hinv.handles.setRelation ⟨_, hy, hleave⟩, h.base.txs, h.base.rx⟩, rfl, hinv.borrowed⟩

/-- **Every call gives the answer of the machine**, and does what the machine does. -/
theorem exec_follows (hb : b ≤ Inner.maxPermits P) (h : Follows b s a) {c : Action T W}
    (hc : s.Allowed c) :
    ∃ t, s.exec c = .ok ((a.exec c).1, t) ∧ Follows b t (a.exec c).2 := by
  cases c with
  | call c => exact call_follows hb h hc
  | send i tx v => exact ⟨_, rfl, send_follows h hc.1 hc.2 v⟩
  | poll i cx =>
    obtain ⟨t, hres, ht⟩ := poll_follows hb h hc cx
    exact ⟨t, by rw [exec, hres]; rfl, ht⟩
  | drop i =>
    obtain ⟨t, hres, ht⟩ := drop_follows hb h hc
    exact ⟨t, by rw [exec, hres]; rfl, ht⟩

/-- The same calls are allowed. -/
theorem Follows.allowed_iff (h : Follows b s a) (c : Action T W) : s.Allowed c ↔ a.Allowed c := by
  cases c with
  | call c =>
    cases c with
    | dropTx tx =>
      refine and_congr (iff_of_eq (congrArg (tx ∈ ·) h.base.txs)) ?_
      rw [borrows, Finset.filter_eq_empty_iff, Machine.Unborrowed, ← h.sends]
      constructor
      · intro hnone i f hf heq
        refine hnone (Store.mem_dom_of_get? hf) ?_
        rw [hf]
        exact beq_iff_eq.mpr heq
      · intro hnone i hi hany
        obtain ⟨f, hf⟩ := Store.exists_get?_of_mem hi
        rw [hf] at hany
        exact hnone i f hf (beq_iff_eq.mp hany)
    | clone tx new => exact h.base.allowed_iff (.clone tx new)
    | isClosed tx => exact h.base.allowed_iff (.isClosed tx)
    | recv cx => exact h.base.allowed_iff (.recv cx)
    | tryRecv => exact h.base.allowed_iff .tryRecv
    | close => exact h.base.allowed_iff .close
    | dropRx => exact h.base.allowed_iff .dropRx
  | send i tx v =>
    exact and_congr (iff_of_eq (congrArg (tx ∈ ·) h.base.txs))
      (iff_of_eq (congrArg (fun sends => sends.get? i = none) h.sends))
  | poll i cx => rw [Allowed, Machine.Allowed, unfinished, h.sends]
  | drop i => rw [Allowed, Machine.Allowed, h.sends]

/-- **What the machine shows** of a bounded channel. -/
structure Shows (s : Channel P T W) (a : Machine T) : Prop where
  base : s.handles.Shows a.base
  sends : s.sends = a.sends
  free : s.available = a.base.gate.free
  /-- The wait list of the semaphore is the line. -/
  line : s.handles.chan.semaphore.inner.WaitList a.base.gate.line
  granted : s.assigned = a.base.gate.granted

theorem Follows.shows (hb : b ≤ Inner.maxPermits P) (h : Follows b s a) : Shows s a := by
  obtain ⟨c, hs, hg⟩ := h.base.inv.semaphore
  have hrefines := hs.models.refines
  refine ⟨h.base.shows (showsSlots_tallies hb _), h.sends,
    hrefines.availablePermits.trans hg.free, hg.line ▸ hrefines.queue, ?_⟩
  ext i
  rw [mem_assigned hs, hg.granted]
  refine and_congr_left fun _ => ?_
  constructor
  · intro hi
    obtain ⟨r, hr⟩ := Store.exists_get?_of_mem hi
    exact (hs.suspended_of_get? hr).1
  · intro hp
    obtain ⟨r, hr, -⟩ := hs.exists_request hp
    exact Store.mem_dom_of_get? hr

/-- **The bounded channel is its machine**: both have the same runs, with the same answers. The
machine has as many slots as the mask of the constructor leaves of the buffer. -/
theorem bounded_follows_machine (P : PointerWidth) (T W : Type) [Waker W] (b : ℕ) :
    SameRuns Step Machine.Step Shows (Channel.new P T W b)
      (Machine.new T (b &&& Inner.maxPermits P)) := by
  have hb : b &&& Inner.maxPermits P ≤ Inner.maxPermits P := Nat.and_le_right
  rw [new_mask]
  exact SameRuns.of_exec (I := Follows (b &&& Inner.maxPermits P))
    (fun _ _ c h => h.allowed_iff c) (fun _ _ _ h hc => exec_follows hb h hc)
    (fun _ _ h => h.shows hb) (new_follows hb)

/-- Two sends wait at a channel with one slot when a value is received. -/
theorem bounded_follows_machine_one : ∃ (es : List (Action ℕ ℕ × Answer ℕ)) (s : Channel .w64 ℕ ℕ)
    (a : Machine ℕ), Run Step (Channel.new .w64 ℕ ℕ 1) es s ∧
      Run Machine.Step (Machine.new ℕ 1) es a ∧ Shows s a ∧ a.base.gate.granted = {8} := by
  have hcheck : (replay (attempt Allowed exec) (Channel.new .w64 ℕ ℕ 1) [.send 7 0 10, .poll 7 1,
      .send 8 0 20, .poll 8 2, .send 9 0 30, .poll 9 3, .call .tryRecv]).map
      (fun r => r.2.assigned) = some {8} := by decide +kernel
  obtain ⟨⟨es, s⟩, hres, hs⟩ := Option.map_eq_some_iff.mp hcheck
  have hrun : Run Step _ es s := run_of_replay (fun _ _ _ _ => of_attempt) hres
  obtain ⟨a, hrun', hshows⟩ := (bounded_follows_machine .w64 ℕ ℕ 1).forth es s hrun
  rw [show 1 &&& Inner.maxPermits .w64 = 1 by decide] at hrun'
  exact ⟨es, s, a, hrun, hrun', hshows, hshows.granted.symm.trans hs⟩

end Channel

end Bounded

end LocalSync.Mpsc
