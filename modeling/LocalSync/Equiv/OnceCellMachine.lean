/-
  A once cell is its machine.

  The gate of the machine shows the semaphore of the cell, and its value is what
  is in the slot (`System.Follows`).  Every call gives the answer of the machine
  (`System.call_follows`), and so does every other step in the life of a cell,
  whatever value it started with (`cell_follows_machine`).  A clone starts anew with
  the value that it copies (`clone_follows_machine`).

  What becomes of the values is then read off the machine: each one that comes in
  is in the cell, or goes back to a caller or to the destructor, once
  (`values_conserved`).
-/
import LocalSync.Equiv.OnceCell
import LocalSync.Equiv.Turnstile
import LocalSync.OnceCell.Life

namespace LocalSync.OnceCell

open Lib
open Semaphore (Tracked Fair Slots Inner Turnstile suspend resumed resumed_eq_self)

variable {P : PointerWidth} {T E W : Type} [Waker W]

/-! ### The cell -/

section Cell

variable {c : OnceCell P T W} {p : Addr → Bool} {a : Fair W} {g : Turnstile}
  {holder : Option Addr} {v : T} {b n : ℕ}

/-- The slot has a value exactly when the flag says so. -/
theorem Holds.valueSet_eq (h : Holds c p a holder) : c.valueSet = c.value.isSome := by
  cases hv : c.valueSet with
  | false => rw [(h.unset hv).1]; rfl
  | true =>
    obtain ⟨v, hval, -⟩ := (h.set hv).2.2.1
    rw [hval]
    rfl

/-- The value in the slot is the one that was written. -/
theorem Holds.head_written (h : Holds c p a holder) : c.written.head? = c.value := by
  cases hv : c.valueSet with
  | false =>
    obtain ⟨hval, hw, -⟩ := h.unset hv
    rw [hval, hw]
    rfl
  | true =>
    obtain ⟨v, hval, hw⟩ := (h.set hv).2.2.1
    rw [hval, hw]
    rfl

/-- The gate is shut exactly when there is a value. -/
theorem Holds.isShut_eq (h : Holds c p a holder) (hg : Turnstile.Shows p a g) :
    g.isShut = c.value.isSome := by
  rw [← hg.isShut, h.closed_eq, h.valueSet_eq]

/-- **Writing the value** shuts the gate. -/
theorem setValue_shows (hs : Slots b p a c.semaphore n) (hb : b ≤ Inner.maxPermits P)
    (hg : Turnstile.Shows p a g) (v : T) :
    ∃ y d, c.setValue v 1 = .ok (v, ⟨true, some v, y, c.written ++ [v]⟩) ∧ Slots b p d y n ∧
      Turnstile.Shows p d g.shut := by
  obtain ⟨y, hclose, hy⟩ := hs.close
  obtain ⟨z, hrelease, hz⟩ := Slots.release (k := 0) hy hb
  rw [Fair.release_zero hy.models.sound] at hz
  refine ⟨z, a.close, ?_, hz, hg.shut hs.models.sound⟩
  simp only [setValue, hclose, Semaphore.Inner.fault_ok, ok_bind, forgetPermit, dropPermit]
  rw [show (0 : UInt32).toNat = 0 from rfl, hrelease]
  rfl

/-- **Giving the permit back** lets the next one in. -/
theorem dropPermit_shows (hs : Slots b p a c.semaphore (n + 1)) (hb : b ≤ Inner.maxPermits P)
    (hg : Turnstile.Shows p a g) :
    ∃ y d, c.dropPermit 1 = .ok { c with semaphore := y } ∧ Slots b p d y n ∧
      Turnstile.Shows p d g.letIn := by
  obtain ⟨y, hres, hy⟩ := hs.release hb
  refine ⟨y, a.release 1, ?_, hy, hg.give (k := 1) hb hs⟩
  rw [dropPermit, show (1 : UInt32).toNat = 1 from rfl, hres]
  rfl

end Cell

/-! ### The machine -/

namespace Machine

variable {a : Machine T} {i : Addr}

omit [Waker W] in
theorem alive_await (a : Machine T) (i : Addr) (first : Bool) :
    (a.await (E := E) i first).2.alive = a.alive := by
  unfold await
  split
  · rfl
  · split <;> rfl

omit [Waker W] in
/-- No call ends the life of a cell. -/
theorem alive_call (h : a.alive = true) (c : Action T E W) : (a.call c).2.alive = true := by
  cases c with
  | poll i cx =>
    rw [call, poll]
    split
    · exact (alive_await a i true).trans h
    · exact (alive_await a i false).trans h
    · exact h
  | initializer i progress => cases progress <;> exact h
  | cancel i =>
    rw [call, cancel]
    split <;> exact h
  | set v =>
    rw [call, set]
    cases a.value with
    | some w => exact h
    | none =>
      dsimp only
      split_ifs <;> exact h
  | take => rfl
  | create i kind | get => exact h

end Machine

/-! ### The calls -/

namespace System

/-- **The cell is as the machine has it.** -/
structure Follows (s : System P T W) (a : Machine T) : Prop where
  inv : ∃ c holder, Inv s c holder ∧ Turnstile.Shows s.waiting c a.gate
  value : s.cell.value = a.value
  futures : s.futures = a.futures

variable {s t : System P T W} {a b : Machine T} {i : Addr} {o : Answer T E} {v : T}

/-- The abstract semaphore of a state is the one that its slots are counted in. -/
theorem follows_of_slots {k n : ℕ} {c d : Fair W} {holder : Option Addr} (hinv : Inv t c holder)
    (hs : Slots k t.waiting d t.cell.semaphore n) (hg : Turnstile.Shows t.waiting d a.gate)
    (hvalue : t.cell.value = a.value) (hfutures : t.futures = a.futures) : Follows t a := by
  obtain ⟨k', n', -, hs'⟩ := hinv.cell.slots
  obtain rfl : d = c := hs.models.refines.unique hs'.models.refines
  exact ⟨⟨d, holder, hinv, hg⟩, hvalue, hfutures⟩

/-- The system after a call at `i` has moved on, with another cell. -/
def moved (s : System P T W) (i : Addr) (cell : OnceCell P T W) (stage : Stage) : System P T W :=
  ({ s with cell } : System P T W).setStage i stage

omit [Waker W] in
theorem waiting_moved (s : System P T W) (i : Addr) (cell : OnceCell P T W) {stage : Stage}
    (hne : stage ≠ .waiting) : (s.moved i cell stage).waiting = resumed s.waiting i :=
  waiting_setStage hne

omit [Waker W] in
theorem waiting_moved_waiting {stage : Stage} (hi : s.stage i = some stage)
    (cell : OnceCell P T W) : (s.moved i cell .waiting).waiting = suspend s.waiting i :=
  waiting_setStage_waiting (s := { s with cell }) hi

omit [Waker W] in
theorem futures_moved (hf : s.futures = a.futures) (i : Addr) (cell : OnceCell P T W)
    (gate : Turnstile) (stage : Stage) :
    (s.moved i cell stage).futures = (a.move i gate stage).futures :=
  congrArg (fun fs => fs.modify i fun f => { f with stage }) hf

/-- **Awaiting the permit.** -/
theorem await_follows (h : Follows s a) (first : Bool)
    (hi : s.stage i = some (if first then .unresumed else .waiting)) (cx : W) :
    ∃ t, s.await i first cx = .ok ((a.await (E := E) i first).1, t) ∧
      Follows t (a.await (E := E) i first).2 := by
  obtain ⟨x, holder, hinv, hg⟩ := h.inv
  obtain ⟨b, n, hb, hs⟩ := hinv.cell.slots
  have hwaiting : s.waiting i = !first := by
    rw [waiting_eq hi]
    cases first <;> rfl
  obtain ⟨y, d, hres, hask⟩ := Turnstile.ask_spec hg hs hb hwaiting cx
  obtain ⟨o, t, x', holder', hawait, hinv', -⟩ := await_spec (E := E) hinv first hi cx
  have hshut := hinv.cell.isShut_eq hg
  have hflag := hinv.cell.valueSet_eq
  rw [h.value] at hshut hflag
  refine ⟨t, ?_⟩
  rw [Machine.await, hawait]
  rw [await, hres] at hawait
  cases hv : a.value with
  | some v =>
    rw [hv, Option.isSome_some] at hshut hflag
    have hclosed : a.gate.ask i first = (.ready (.error .closed), a.gate.leave i) := by
      rw [Turnstile.ask, if_pos hshut]
    rw [hclosed] at hawait hask
    simp only [Semaphore.Inner.fault_ok, ok_bind, initialized, hflag, assert_true, getUnchecked,
      h.value, hv] at hawait
    obtain ⟨rfl, rfl⟩ := Prod.mk.inj (Except.ok.inj hawait)
    obtain ⟨-, hslots, hshows⟩ := hask
    rw [← waiting_moved s i { s.cell with semaphore := y } (by simp : Stage.returned ≠ .waiting)]
      at hslots hshows
    exact ⟨rfl, follows_of_slots hinv' hslots hshows hv.symm
      (futures_moved h.futures ..)⟩
  | none =>
    rw [hv, Option.isSome_none] at hshut hflag
    generalize a.gate.ask i first = r at hawait hask
    obtain ⟨e | _, gate⟩ := r
    · obtain ⟨hclosed, hslots, hshows⟩ := hask
      cases e with
      | error e =>
        cases e
        exact absurd (hshut.symm.trans (hclosed.mpr rfl)) Bool.false_ne_true
      | ok u =>
        simp only [Semaphore.Inner.fault_ok, ok_bind, initialized, hflag, Bool.not_false,
          assert_true] at hawait
        obtain ⟨rfl, rfl⟩ := Prod.mk.inj (Except.ok.inj hawait)
        rw [← waiting_moved s i { s.cell with semaphore := y }
          (by simp : Stage.initializing 1 ≠ .waiting)] at hslots hshows
        exact ⟨rfl, follows_of_slots hinv' hslots hshows h.value
          (futures_moved h.futures ..)⟩
    · obtain ⟨hslots, hshows⟩ := hask
      simp only [Semaphore.Inner.fault_ok, ok_bind] at hawait
      obtain ⟨rfl, rfl⟩ := Prod.mk.inj (Except.ok.inj hawait)
      rw [← waiting_moved_waiting hi { s.cell with semaphore := y }] at hslots hshows
      exact ⟨rfl, follows_of_slots hinv' hslots hshows h.value
        (futures_moved h.futures ..)⟩

/-- Who does not wait leaves no trace at the gate. -/
theorem Follows.leave_eq_self (h : Follows s a) (hi : s.waiting i = false) :
    a.gate.leave i = a.gate := by
  obtain ⟨x, holder, hinv, hg⟩ := h.inv
  obtain ⟨b, n, -, hs⟩ := hinv.cell.slots
  exact Turnstile.leave_eq_self (hg.not_mem_granted hi)
    (hg.line ▸ Turnstile.not_mem_waiting hs hi)

/-- **Polling a future.** -/
theorem poll_follows (h : Follows s a) {stage : Stage} (hi : s.stage i = some stage)
    (hne : stage ≠ .returned) (cx : W) :
    ∃ t, s.poll i cx = .ok ((a.poll (E := E) i).1, t) ∧ Follows t (a.poll (E := E) i).2 := by
  obtain ⟨x, holder, hinv, hg⟩ := h.inv
  have hflag := hinv.cell.valueSet_eq
  obtain ⟨o, t, x', holder', hpoll, hinv', -⟩ := poll_spec (E := E) hinv hi hne cx
  obtain ⟨⟨kind, st⟩, hf, rfl⟩ := Option.map_eq_some_iff.mp hi
  have hfa : a.futures.get? i = some ⟨kind, st⟩ := by rw [← h.futures, hf]
  simp only [Machine.poll, hfa]
  cases st with
  | unresumed =>
    cases hv : a.value with
    | some v =>
      have hval : s.cell.value = some v := h.value.trans hv
      have hwaiting : s.waiting i = false := waiting_eq hi
      have hself : (s.moved i s.cell .returned).waiting = s.waiting := by
        rw [waiting_moved _ _ _ (by simp), resumed_eq_self hwaiting]
      obtain ⟨b, n, -, hs⟩ := hinv.cell.slots
      rw [hval] at hflag
      have hres : s.poll (E := E) i cx = .ok (.value v, s.moved i s.cell .returned) := by
        simp only [poll, hf, initialized, hflag, Option.isSome_some, if_true, getUnchecked, hval]
        rfl
      obtain ⟨rfl, rfl⟩ := Prod.mk.inj (Except.ok.inj (hpoll.symm.trans hres))
      rw [Machine.await, hv]
      refine ⟨_, hres, follows_of_slots (n := n) (k := b) (d := x) hinv' ?_ ?_ h.value ?_⟩
      · rw [hself]
        exact hs
      · rw [hself]
        exact (h.leave_eq_self hwaiting).symm ▸ hg
      · exact futures_moved h.futures ..
    | none =>
      obtain ⟨t', hawait, ht⟩ := await_follows (E := E) h true hi cx
      rw [h.value, hv] at hflag
      refine ⟨t', ?_, ht⟩
      simp only [poll, hf, initialized, hflag, Option.isSome_none, Bool.false_eq_true, if_false]
      exact hawait
  | waiting =>
    obtain ⟨t', hawait, ht⟩ := await_follows (E := E) h false hi cx
    refine ⟨t', ?_, ht⟩
    simp only [poll, hf]
    exact hawait
  | initializing n => exact ⟨s, by simp only [poll, hf], h⟩
  | returned => exact absurd rfl hne

/-- **Polling the initialiser.** -/
theorem initializer_follows (h : Follows s a) {n : UInt32}
    (hi : s.stage i = some (.initializing n)) (progress : Progress T E) :
    ∃ t, s.initializer i progress = .ok ((a.initializer i progress).1, t) ∧
      Follows t (a.initializer i progress).2 := by
  obtain ⟨x, holder, hinv, hg⟩ := h.inv
  obtain ⟨o, t, x', holder', hres, hinv', -⟩ := initializer_spec (E := E) hinv hi progress
  obtain ⟨rfl, rfl⟩ := (hinv.stage i n).mp hi
  obtain ⟨-, hwritten, -, hs⟩ := hinv.cell.unset hinv.cell.valueSet_of_holder
  obtain ⟨⟨kind, st⟩, hf, hst⟩ := Option.map_eq_some_iff.mp hi
  obtain rfl : st = .initializing 1 := hst
  have hwaiting : ∀ cell, (s.moved i cell .returned).waiting = s.waiting := fun cell => by
    rw [waiting_moved _ _ _ (by simp), resumed_eq_self (waiting_eq hi)]
  refine ⟨t, ?_⟩
  rw [hres]
  cases progress with
  | pending =>
    simp only [initializer, hf] at hres
    obtain ⟨rfl, rfl⟩ := Prod.mk.inj (Except.ok.inj hres)
    exact ⟨rfl, h⟩
  | value v =>
    obtain ⟨y, d, hset, hslots, hshows⟩ := setValue_shows hs one_le hg v
    simp only [initializer, hf, hset, ok_bind] at hres
    obtain ⟨rfl, rfl⟩ := Prod.mk.inj (Except.ok.inj hres)
    rw [← hwaiting ⟨true, some v, y, s.cell.written ++ [v]⟩] at hslots hshows
    exact ⟨rfl, follows_of_slots hinv' hslots hshows rfl
      (futures_moved h.futures i _ a.gate.shut _)⟩
  | error e =>
    obtain ⟨y, d, hdrop, hslots, hshows⟩ := dropPermit_shows (n := 0) hs one_le hg
    simp only [initializer, hf, hdrop, ok_bind] at hres
    obtain ⟨rfl, rfl⟩ := Prod.mk.inj (Except.ok.inj hres)
    rw [← hwaiting { s.cell with semaphore := y }] at hslots hshows
    exact ⟨rfl, follows_of_slots hinv' hslots hshows h.value (futures_moved h.futures ..)⟩
  | panic =>
    obtain ⟨y, d, hdrop, hslots, hshows⟩ := dropPermit_shows (n := 0) hs one_le hg
    simp only [initializer, hf, hdrop, ok_bind] at hres
    obtain ⟨rfl, rfl⟩ := Prod.mk.inj (Except.ok.inj hres)
    rw [← hwaiting { s.cell with semaphore := y }] at hslots hshows
    exact ⟨rfl, follows_of_slots hinv' hslots hshows h.value (futures_moved h.futures ..)⟩

/-- **Dropping a future.** -/
theorem cancel_follows (h : Follows s a) {stage : Stage} (hi : s.stage i = some stage) :
    ∃ t, s.cancel i = .ok t ∧ Follows t (a.cancel i) := by
  obtain ⟨x, holder, hinv, hg⟩ := h.inv
  obtain ⟨t, x', holder', hres, hinv', -⟩ := cancel_spec hinv hi
  obtain ⟨⟨kind, st⟩, hf, rfl⟩ := Option.map_eq_some_iff.mp hi
  have hfa : a.futures.get? i = some ⟨kind, st⟩ := by rw [← h.futures, hf]
  have hfutures : s.futures.erase i = a.futures.erase i := congrArg (Store.erase · i) h.futures
  have hwaiting : ∀ cell : OnceCell P T W,
      ({ cell, futures := s.futures.erase i } : System P T W).waiting = resumed s.waiting i :=
    fun cell => waiting_erase { s with cell } i
  refine ⟨t, hres, ?_⟩
  simp only [Machine.cancel, hfa]
  simp only [cancel, hf] at hres
  cases st with
  | waiting =>
    obtain ⟨b, n, hb, hs⟩ := hinv.cell.slots
    have hp : s.waiting i = true := waiting_eq hi
    obtain ⟨y, hdrop, hslots⟩ := hs.drop hb hp
    have hshows := hg.leave hs hp
    simp only [hdrop, Semaphore.Inner.fault_ok, ok_bind] at hres
    obtain rfl := Except.ok.inj hres
    rw [← hwaiting { s.cell with semaphore := y }] at hslots hshows
    exact follows_of_slots hinv' hslots hshows h.value hfutures
  | initializing n =>
    obtain ⟨rfl, rfl⟩ := (hinv.stage i n).mp hi
    obtain ⟨-, -, -, hs⟩ := hinv.cell.unset hinv.cell.valueSet_of_holder
    obtain ⟨y, d, hdrop, hslots, hshows⟩ := dropPermit_shows (n := 0) hs one_le hg
    simp only [hdrop, ok_bind] at hres
    obtain rfl := Except.ok.inj hres
    rw [← resumed_eq_self (waiting_eq hi : s.waiting i = false),
      ← hwaiting { s.cell with semaphore := y }] at hslots hshows
    exact follows_of_slots hinv' hslots hshows h.value hfutures
  | unresumed | returned =>
    obtain ⟨b, n, hb, hs⟩ := hinv.cell.slots
    obtain rfl := Except.ok.inj hres
    rw [← resumed_eq_self (waiting_eq hi : s.waiting i = false), ← hwaiting s.cell] at hs hg
    exact follows_of_slots hinv' hs hg h.value hfutures

omit [Waker W] in
theorem waiting_create (hi : s.futures.get? i = none) (kind : Kind) :
    ({ s with futures := s.futures.insert i { kind, stage := .unresumed } } :
      System P T W).waiting = s.waiting := by
  funext j
  unfold waiting System.stage
  rw [Store.get?_insert]
  split_ifs with hj
  · rw [hj, hi]
    rfl
  · rfl

/-- **Setting the value.** -/
theorem set_follows (h : Follows s a) (v : T) :
    ∃ c, s.cell.set v = .ok ((a.set v).1, c) ∧ Follows { s with cell := c } (a.set v).2 := by
  obtain ⟨x, holder, hinv, hg⟩ := h.inv
  obtain ⟨r, c, x', hres, hholds, -⟩ := set_spec hinv.cell v
  have hinv' : Inv { s with cell := c } x' holder := ⟨hholds, hinv.stage⟩
  have hshut := hinv.cell.isShut_eq hg
  have hflag := hinv.cell.valueSet_eq
  rw [h.value] at hshut hflag
  refine ⟨c, ?_⟩
  rw [Machine.set, hres]
  rw [OnceCell.set] at hres
  cases hv : a.value with
  | some w =>
    rw [hv, Option.isSome_some] at hflag
    simp only [initialized, hflag, if_true] at hres
    obtain ⟨rfl, rfl⟩ := Prod.mk.inj (Except.ok.inj hres)
    exact ⟨rfl, h⟩
  | none =>
    rw [hv, Option.isSome_none] at hflag hshut
    obtain ⟨-, hwritten, -, hs⟩ := hinv.cell.unset hflag
    obtain ⟨y, htry, hslots⟩ := hs.tryAcquire one_le
    have hask := hg.tryAcquire hshut
    simp only [initialized, hflag, Bool.false_eq_true, if_false, htry, Semaphore.Inner.fault_ok,
      ok_bind, Bool.not_false, assert_true] at hres
    dsimp only
    split_ifs at hask ⊢ with hfree
    · obtain ⟨hok, hshows⟩ := hask
      obtain ⟨z, d, hset, hslots', hshows'⟩ :=
        setValue_shows (c := { s.cell with semaphore := y }) hslots one_le hshows v
      rw [hok] at hres
      dsimp only at hset
      rw [hflag] at hset
      simp only [hset, ok_bind] at hres
      obtain ⟨rfl, rfl⟩ := Prod.mk.inj (Except.ok.inj hres)
      exact ⟨rfl, follows_of_slots hinv' hslots' hshows' rfl h.futures⟩
    · rw [Fair.tryAcquire_error hask] at hslots
      rw [hask] at hres
      obtain ⟨rfl, rfl⟩ := Prod.mk.inj (Except.ok.inj hres)
      exact ⟨rfl, follows_of_slots hinv' hslots hg h.value h.futures⟩

theorem new_follows : Follows (System.of (OnceCell.new P T W)) (Machine.new T) where
  inv := by
    refine ⟨Fair.new W 1, none, of_inv new_holds, ?_⟩
    have hnone : (System.of (OnceCell.new P T W)).waiting = fun _ => false := by
      funext i
      simp [waiting, System.stage, System.of]
    rw [hnone]
    exact Turnstile.new_shows 1
  value := rfl
  futures := rfl

/-- **Every call gives the answer of the machine**, and does what the machine does. -/
theorem call_follows (h : Follows s a) {c : Action T E W} (hc : s.Allowed c) :
    ∃ t, s.exec c = .ok ((a.call c).1, t) ∧ Follows t (a.call c).2 := by
  obtain ⟨x, holder, hinv, hg⟩ := h.inv
  cases c with
  | create i kind =>
    refine ⟨_, rfl, ⟨x, holder, create_spec hinv hc kind, ?_⟩, h.value, ?_⟩
    · rw [waiting_create hc]
      exact hg
    · exact congrArg (fun fs => fs.insert i { kind, stage := .unresumed }) h.futures
  | poll i cx =>
    obtain ⟨stage, hi, hne⟩ := (Option.any_eq_true _ _).mp hc
    exact poll_follows h hi (by simpa using hne) cx
  | initializer i progress =>
    obtain ⟨⟨kind, st⟩, hf, hst⟩ := (Option.any_eq_true _ _).mp hc
    have hi : s.stage i = some st := by rw [System.stage, hf]; rfl
    cases st with
    | initializing n => exact initializer_follows h hi progress
    | unresumed | waiting | returned => cases hst
  | cancel i =>
    obtain ⟨f, hf⟩ := Option.isSome_iff_exists.mp hc
    have hi : s.stage i = some f.stage := by rw [System.stage, hf]; rfl
    obtain ⟨t, hres, ht⟩ := cancel_follows h hi
    exact ⟨t, by rw [exec, hres]; rfl, ht⟩
  | set v =>
    obtain ⟨c, hres, hset⟩ := set_follows h v
    exact ⟨_, by rw [exec, hres]; rfl, hset⟩
  | get =>
    refine ⟨s, ?_, h⟩
    rw [exec, hinv.cell.get_spec, hinv.cell.head_written, h.value]
    rfl
  | take =>
    refine ⟨_, ?_, new_follows⟩
    rw [take_spec hinv hc, hinv.cell.head_written, h.value]
    rfl

omit [Waker W] in
/-- The same calls are allowed. -/
theorem allowed_iff (hf : s.futures = a.futures) (c : Action T E W) :
    s.Allowed c ↔ a.AllowedCall c := by
  cases c with
  | initializer i progress =>
    rw [Allowed, Machine.AllowedCall, hf]
    cases a.futures.get? i with
    | none => rfl
    | some f =>
      obtain ⟨kind, stage⟩ := f
      cases stage <;> cases progress <;> rfl
  | poll i cx => rw [Allowed, Machine.AllowedCall, System.stage, Machine.stage, hf]
  | create i kind | cancel i | take => rw [Allowed, Machine.AllowedCall, hf]
  | set v | get => rfl

end System

/-! ### The life of a cell -/

namespace Life

/-- The cell is as the machine has it, for as long as it lives. -/
structure Follows (s : Life P T W) (a : Machine T) : Prop where
  system : s.system.Follows a
  alive : s.alive = a.alive

/-- **What the machine shows** of a cell. -/
structure Shows (s : Life P T W) (a : Machine T) : Prop where
  alive : s.alive = a.alive
  value : s.system.cell.value = a.value
  valueSet : s.system.cell.valueSet = a.value.isSome
  futures : s.system.futures = a.futures
  free : s.system.cell.semaphore.inner.availablePermits = a.gate.free
  isShut : s.system.cell.semaphore.inner.isClosed = a.gate.isShut
  line : s.system.cell.semaphore.inner.WaitList a.gate.line
  /-- Whoever has been granted the permit awaits it, and its request needs nothing any more. -/
  granted : ∀ i, i ∈ a.gate.granted ↔
    s.system.waiting i = true ∧ s.system.cell.semaphore.inner.need i = 0

variable {s t : Life P T W} {a b : Machine T} {o : Option T}

theorem Follows.shows (h : Follows s a) : Shows s a := by
  obtain ⟨x, holder, hinv, hg⟩ := h.system.inv
  obtain ⟨k, n, -, hs⟩ := hinv.cell.slots
  have hrefines := hs.models.refines
  refine ⟨h.alive, h.system.value, ?_, h.system.futures, hrefines.availablePermits.trans hg.free,
    hs.isClosed.trans hg.isShut, hg.line ▸ hrefines.queue, fun i => ?_⟩
  · rw [hinv.cell.valueSet_eq, h.system.value]
  · rw [hg.granted, hrefines.need_eq]

/-- Putting another value in the place of the old one. -/
theorem replace_holds {c : OnceCell P T W} {p : Addr → Bool} {x : Fair W} {holder : Option Addr}
    (h : Holds c p x holder) (hv : c.valueSet = true) (v : T) :
    Holds { c with value := some v, written := [v] } p x holder where
  unset hf := by
    rw [show c.valueSet = false from hf] at hv
    cases hv
  set _ := by
    obtain ⟨hnone, hclosed, -, hs⟩ := h.set hv
    exact ⟨hnone, hclosed, ⟨v, rfl, rfl⟩, hs⟩

theorem replace_follows (h : s.system.Follows a) (v : T) :
    ∃ c, s.system.cell.replace v = .ok (a.value, c) ∧
      System.Follows { s.system with cell := c } { a with value := a.value.map fun _ => v } := by
  obtain ⟨x, holder, hinv, hg⟩ := h.inv
  have hflag := hinv.cell.valueSet_eq
  rw [h.value] at hflag
  cases hv : a.value with
  | some old =>
    rw [hv] at hflag
    refine ⟨{ s.system.cell with value := some v, written := [v] }, ?_,
      ⟨x, holder, ⟨replace_holds hinv.cell hflag v, hinv.stage⟩, hg⟩, rfl, h.futures⟩
    simp only [replace, getMut, hflag, Option.isSome_some, if_true, getUnchecked, h.value, hv,
      ok_bind]
    rfl
  | none =>
    rw [hv] at hflag
    refine ⟨s.system.cell, ?_, ⟨x, holder, hinv, hg⟩, h.value.trans hv, h.futures⟩
    simp only [replace, getMut, hflag, Option.isSome_none, Bool.false_eq_true, if_false, ok_bind]
    rfl

theorem dropped_follows (h : s.system.Follows a) : s.system.cell.dropped = .ok a.value := by
  obtain ⟨x, holder, hinv, -⟩ := h.inv
  rw [hinv.cell.dropped_spec, hinv.cell.head_written, h.value]

/-- **Every step gives the answer of the machine.** -/
theorem exec_follows (h : Follows s a) {c : Action T E W} (hc : s.Allowed c) :
    ∃ t, s.exec c = .ok ((a.exec c).1, t) ∧ Follows t (a.exec c).2 := by
  cases c with
  | call c =>
    obtain ⟨t, hres, ht⟩ := System.call_follows h.system hc.2
    refine ⟨{ s with system := t }, by rw [exec, hres]; rfl, ht, ?_⟩
    exact hc.1.trans (Machine.alive_call (h.alive ▸ hc.1) c).symm
  | replace v =>
    obtain ⟨c, hres, hreplaced⟩ := replace_follows h.system v
    exact ⟨{ s with system := { s.system with cell := c } }, by rw [exec, hres]; rfl, hreplaced,
      h.alive⟩
  | intoInner =>
    obtain ⟨x, holder, hinv, -⟩ := h.system.inv
    refine ⟨{ s with alive := false }, ?_, ⟨h.system.inv, h.system.value, h.system.futures⟩, rfl⟩
    rw [exec, hinv.cell.intoInner_spec, hinv.cell.head_written, h.system.value]
    rfl
  | drop =>
    refine ⟨{ s with alive := false }, ?_, ⟨h.system.inv, h.system.value, h.system.futures⟩, rfl⟩
    rw [exec, dropped_follows h.system]
    rfl

/-- The same steps are allowed. -/
theorem Follows.allowed_iff (h : Follows s a) (c : Action T E W) : s.Allowed c ↔ a.Allowed c := by
  cases c with
  | call c =>
    rw [Allowed, Machine.Allowed, h.alive, System.allowed_iff h.system.futures]
  | replace v | intoInner | drop =>
    rw [Allowed, Machine.Allowed, h.alive, h.system.futures]

/-- A cell that starts with a value, or without one. -/
theorem newWith_follows (o : Option T) :
    ∃ c, newWith P W o = .ok c ∧ Follows (Life.of c) (Machine.newWith o) := by
  cases o with
  | none => exact ⟨_, rfl, System.new_follows, rfl⟩
  | some v =>
    obtain ⟨c, x, hres, hc⟩ := fromValue_spec (P := P) (W := W) v
    refine ⟨c, hres, ?_, rfl⟩
    have hinv := System.of_inv hc
    have hwaiting : (System.of c).waiting = fun _ => false := by
      funext i
      simp [System.waiting, System.stage, System.of]
    have hnew := Slots.new (P := P) (W := W) (Nat.zero_le _)
    obtain ⟨y, hclose, hslots⟩ := hnew.close
    have hshows := (Turnstile.new_shows (W := W) 0).shut hnew.models.sound
    rw [fromValue, hclose] at hres
    obtain rfl := Except.ok.inj hres
    rw [← hwaiting] at hslots hshows
    exact System.follows_of_slots hinv hslots hshows rfl rfl

/-- Whoever has been in such a state since then has the same runs as the machine. -/
theorem Follows.sameRuns (E : Type) (h : Follows s a) :
    SameRuns (Life.Step (E := E)) (Machine.Step (E := E)) Life.Shows s a :=
  SameRuns.of_exec (I := Life.Follows) (fun _ _ c h => h.allowed_iff c)
    (fun _ _ _ h hc => Life.exec_follows h hc) (fun _ _ h => h.shows) h

/-- What `get` finds. -/
theorem Follows.get_eq (h : Follows s a) : s.system.cell.get = .ok s.system.cell.value := by
  obtain ⟨x, holder, hinv, -⟩ := h.system.inv
  rw [hinv.cell.get_spec, hinv.cell.head_written]

/-- The cells that a run leads to. -/
theorem run_follows {c : OnceCell P T W} {es : List (Life.Action T E W × Life.Answer T E)}
    (hc : newWith P W o = .ok c) (hrun : Run Life.Step (Life.of c) es s) : ∃ a, Follows s a := by
  obtain ⟨c', hc', hstart⟩ := newWith_follows (P := P) (W := W) o
  obtain rfl := Except.ok.inj (hc.symm.trans hc')
  refine hrun.invariant (I := fun s => ∃ a, Follows s a) ?_ ⟨_, hstart⟩
  rintro s e t ⟨a, ha⟩ ⟨hallowed, hres⟩
  obtain ⟨u, hres', hu⟩ := exec_follows ha hallowed
  obtain ⟨-, rfl⟩ := Prod.mk.inj (Except.ok.inj (hres.symm.trans hres'))
  exact ⟨_, hu⟩

end Life

/-- **A once cell is its machine**, from any start and to the end of its life: both have the same
runs, with the same answers. -/
theorem cell_follows_machine (P : PointerWidth) (E W : Type) [Waker W] (o : Option T) :
    ∃ c, newWith P W o = .ok c ∧
      SameRuns (Life.Step (E := E)) (Machine.Step (E := E)) Life.Shows (Life.of c)
        (Machine.newWith o) := by
  obtain ⟨c, hres, hc⟩ := Life.newWith_follows (P := P) (W := W) o
  exact ⟨c, hres, hc.sameRuns E⟩

/-- **A clone is a cell of its own**: taken in any state of any run, it has from then on the runs of
a new cell with a copy of the value, and it is equal to the original if the copy is. -/
theorem clone_follows_machine {c : OnceCell P T W} {o : Option T} (hc : newWith P W o = .ok c)
    {es : List (Life.Action T E W × Life.Answer T E)} {s : Life P T W}
    (hrun : Run Life.Step (Life.of c) es s) (copy : T → T) :
    ∃ d, s.system.cell.clone copy = .ok d ∧
      SameRuns (Life.Step (E := E)) (Machine.Step (E := E)) Life.Shows (Life.of d)
        (Machine.newWith (s.system.cell.value.map copy)) ∧
      ∀ [BEq T], s.system.cell.eq d =
        .ok (s.system.cell.value == s.system.cell.value.map copy) := by
  obtain ⟨a, ha⟩ := Life.run_follows hc hrun
  obtain ⟨d, hres, hd⟩ := Life.newWith_follows (P := P) (W := W) (s.system.cell.value.map copy)
  refine ⟨d, ?_, hd.sameRuns E, ?_⟩
  · rw [clone, ha.get_eq, ok_bind]
    exact hres
  · intro
    have hvalue : d.value = s.system.cell.value.map copy := by
      have hshow := hd.shows.value
      rw [show (Life.of d).system.cell = d from rfl] at hshow
      rw [hshow]
      cases s.system.cell.value <;> rfl
    have hget : d.get = .ok d.value := hd.get_eq
    rw [eq, ha.get_eq, ok_bind, hget, ok_bind, hvalue]
    rfl

/-- A cell is cloned while an initialiser is at work, and again when it has a value: the first clone
is empty, and the second one holds a copy. -/
theorem clone_follows_machine_initializing :
    ∃ (es fs : List (Life.Action ℕ ℕ ℕ × Life.Answer ℕ ℕ)) (s t : Life .w64 ℕ ℕ)
      (d e : OnceCell .w64 ℕ ℕ),
      Run Life.Step (Life.of (new .w64 ℕ ℕ)) es s ∧
        s.system.cell.semaphore.inner.availablePermits = 0 ∧ s.system.cell.clone id = .ok d ∧
          SameRuns (Life.Step (E := ℕ)) (Machine.Step (E := ℕ)) Life.Shows (Life.of d)
            (Machine.newWith none) ∧
      Run Life.Step (Life.of (new .w64 ℕ ℕ)) fs t ∧ t.system.cell.clone (· + 1) = .ok e ∧
        SameRuns (Life.Step (E := ℕ)) (Machine.Step (E := ℕ)) Life.Shows (Life.of e)
          (Machine.newWith (some 8)) ∧ t.system.cell.eq e = .ok false := by
  have hcheck : (replay (attempt Life.Allowed Life.exec) (Life.of (new .w64 ℕ ℕ))
      ([.call (.create 1 .init), .call (.poll 1 0)] : List (Life.Action ℕ ℕ ℕ))).map
        (fun r => (r.2.system.cell.semaphore.inner.availablePermits, r.2.system.cell.value)) =
          some (0, none) := by
    decide +kernel
  have hcheck' : (replay (attempt Life.Allowed Life.exec) (Life.of (new .w64 ℕ ℕ))
      ([.call (.set 7)] : List (Life.Action ℕ ℕ ℕ))).map (fun r => r.2.system.cell.value) =
        some (some 7) := by
    decide +kernel
  obtain ⟨⟨es, s⟩, hres, hs⟩ := Option.map_eq_some_iff.mp hcheck
  obtain ⟨⟨fs, t⟩, hres', ht⟩ := Option.map_eq_some_iff.mp hcheck'
  obtain ⟨hpermits, hvalue⟩ := Prod.mk.inj hs
  have hrun : Run Life.Step _ es s := run_of_replay (fun _ _ _ _ => of_attempt) hres
  have hrun' : Run Life.Step _ fs t := run_of_replay (fun _ _ _ _ => of_attempt) hres'
  obtain ⟨d, hd, hruns, -⟩ := clone_follows_machine (o := none) rfl hrun id
  obtain ⟨e, he, hruns', heq⟩ := clone_follows_machine (o := none) rfl hrun' (· + 1)
  have heq : t.system.cell.eq e = _ := heq
  rw [show s.system.cell.value = none from hvalue] at hruns
  rw [show t.system.cell.value = some 7 from ht] at hruns' heq
  exact ⟨es, fs, s, t, d, e, hrun, hpermits, hd, hruns, hrun', he, hruns', heq⟩

/-! ### What becomes of the values -/

namespace Life

variable {s t : Life P T W} {a : Machine T}

omit [Waker W] in
/-- A poll neither brings a value nor takes one away. -/
theorem poll_keeps (a : Machine T) (i : Addr) (cx : W) :
    (a.poll (E := E) i).2.held = a.held ∧
      gone ((.call (.poll i cx), .call (a.poll (E := E) i).1) : Action T E W × _) = [] := by
  have hawait : ∀ first, (a.await (E := E) i first).2.held = a.held ∧
      gone ((.call (.poll i cx), .call (a.await (E := E) i first).1) : Action T E W × _) = [] := by
    intro first
    unfold Machine.await
    split
    · exact ⟨rfl, rfl⟩
    · split <;> exact ⟨rfl, rfl⟩
  unfold Machine.poll
  split
  · exact hawait true
  · exact hawait false
  · exact ⟨rfl, rfl⟩

omit [Waker W] in
theorem cancel_keeps (a : Machine T) (i : Addr) : (a.cancel i).held = a.held := by
  unfold Machine.cancel
  split <;> rfl

/-- Whoever runs an initialiser has the permit, and the cell is empty. -/
theorem empty_of_initializer {s : System P T W} (h : s.Follows a) {i : Addr}
    {progress : Progress T E} (hc : s.Allowed (.initializer i progress : OnceCell.Action T E W)) :
    a.value = none := by
  obtain ⟨x, holder, hinv, -⟩ := h.inv
  obtain ⟨⟨kind, st⟩, hf, hst⟩ := (Option.any_eq_true _ _).mp hc
  cases st with
  | initializing n =>
    have hi : s.stage i = some (.initializing n) := by rw [System.stage, hf]; rfl
    obtain ⟨rfl, -⟩ := (hinv.stage i n).mp hi
    rw [← h.value]
    exact (hinv.cell.unset hinv.cell.valueSet_of_holder).1
  | unresumed | waiting | returned => cases hst

/-- **One step**: what is in the cell and what comes in is what goes away and what is then in the
cell. -/
theorem held_step (h : Follows s a) {c : Action T E W} (hc : s.Allowed c) :
    (a.held ++ given c).Perm (gone (c, (a.exec c).1) ++ (a.exec c).2.held) := by
  have halive : a.alive = true := by
    rw [← h.alive]
    cases c <;> exact hc.1
  have hheld : a.held = a.value.toList := if_pos halive
  cases c with
  | call c =>
    cases c with
    | create i kind | get => exact List.perm_append_comm
    | poll i cx =>
      obtain ⟨hkept, hgone⟩ := poll_keeps (E := E) a i cx
      show (a.held ++ []).Perm (gone (_, .call (a.poll i).1) ++ (a.poll (E := E) i).2.held)
      rw [hkept, hgone]
      exact List.perm_append_comm
    | cancel i =>
      show (a.held ++ []).Perm ([] ++ (a.cancel i).held)
      rw [cancel_keeps]
      exact List.perm_append_comm
    | initializer i progress =>
      cases progress with
      | pending | error e | panic => exact List.perm_append_comm
      | value v =>
        have hnone : a.value = none := empty_of_initializer h.system hc.2
        rw [hheld, hnone]
        show ([] ++ [v] : List T).Perm ([] ++ if a.alive then [v] else [])
        rw [halive]
        rfl
    | set v =>
      rw [hheld]
      show (a.value.toList ++ [v]).Perm (gone (_, .call (.set (a.set v).1)) ++ (a.set v).2.held)
      unfold Machine.set
      cases hv : a.value with
      | some w =>
        rw [Machine.held, if_pos halive, hv]
        exact List.perm_append_comm
      | none =>
        dsimp only
        split_ifs
        · rw [Machine.held, Machine.fill, if_pos halive]
          rfl
        · rw [Machine.held, if_pos halive, hv]
          exact List.perm_append_comm
    | take =>
      rw [hheld]
      rfl
  | replace v =>
    rw [hheld]
    show (a.value.toList ++ [v]).Perm (gone (.replace v, .replaced a.value) ++
      if a.alive then (a.value.map fun _ => v).toList else [])
    rw [halive]
    cases a.value <;> rfl
  | intoInner | drop =>
    rw [hheld]
    rfl

theorem Follows.held_eq (h : Follows s a) : s.held = a.held := by
  rw [Life.held, Machine.held, h.alive, h.system.value]

end Life

/-- **No value is lost, and none is dropped twice**: the values that were given to a cell are the
ones that calls have returned or refused, the one that the destructor has dropped, and the one that
is still in the cell. -/
theorem values_conserved {c : OnceCell P T W} {o : Option T} (hc : newWith P W o = .ok c)
    {es : List (Life.Action T E W × Life.Answer T E)} {s : Life P T W}
    (hrun : Run Life.Step (Life.of c) es s) :
    (o.toList ++ es.flatMap fun e => Life.given e.1).Perm (es.flatMap Life.gone ++ s.held) := by
  obtain ⟨c', hc', hstart⟩ := Life.newWith_follows (P := P) (W := W) o
  obtain rfl := Except.ok.inj (hc.symm.trans hc')
  have hstep : ∀ (s : Life P T W) (e : Life.Action T E W × Life.Answer T E) s',
      (∃ a, Life.Follows s a) →
        Life.Step s e s' →
          (∃ a, Life.Follows s' a) ∧ (s.held ++ Life.given e.1).Perm (Life.gone e ++ s'.held) := by
    rintro s ⟨c, o⟩ s' ⟨a, ha⟩ ⟨hc, hres⟩
    obtain ⟨u, hres', hu⟩ := Life.exec_follows ha hc
    obtain ⟨ho, rfl⟩ := Prod.mk.inj (Except.ok.inj (hres.symm.trans hres'))
    dsimp only at ho hc hu ⊢
    rw [ho, ha.held_eq, hu.held_eq]
    exact ⟨⟨_, hu⟩, Life.held_step ha hc⟩
  have hperm := (Run.conserved (fun e => Life.given e.1) Life.gone Life.held hstep hrun
    ⟨_, hstart⟩).2
  have hfirst : (Life.of c).held = o.toList := by
    rw [hstart.held_eq]
    cases o <;> rfl
  rw [hfirst] at hperm
  exact hperm

/-- A value is refused, one is replaced through `get_mut`, and the one that is left is dropped. -/
theorem values_conserved_dropped :
    ∃ (es : List (Life.Action ℕ ℕ ℕ × Life.Answer ℕ ℕ)) (s : Life .w64 ℕ ℕ),
      Run Life.Step (Life.of (new .w64 ℕ ℕ)) es s ∧ es.flatMap Life.gone = [6, 5, 7] ∧
        ((none : Option ℕ).toList ++ es.flatMap fun e => Life.given e.1).Perm
          (es.flatMap Life.gone ++ s.held) := by
  have hcheck : (replay (attempt Life.Allowed Life.exec) (Life.of (new .w64 ℕ ℕ))
      ([.call (.create 1 .init), .call (.poll 1 0), .call (.initializer 1 (.value 5)),
        .call (.set 6), .call (.cancel 1), .replace 7, .drop] :
          List (Life.Action ℕ ℕ ℕ))).map (fun r => r.1.flatMap Life.gone) = some [6, 5, 7] := by
    decide +kernel
  obtain ⟨⟨es, s⟩, hres, hgone⟩ := Option.map_eq_some_iff.mp hcheck
  have hrun : Run Life.Step _ es s := run_of_replay (fun _ _ _ _ => of_attempt) hres
  exact ⟨es, s, hrun, hgone, values_conserved (o := none) rfl hrun⟩

end LocalSync.OnceCell
