/-
  A once cell without a value does not get stuck.

  The one permit of the cell is always in one place: in the counter, with the
  call that runs its initialiser, or assigned to a call that waits (`PermitAt`).
  A cancelled or failed initialisation only moves it on, and whoever it has been
  assigned to had waited longest and has been woken, so it is not lost when that
  call is cancelled in its turn.  `set` succeeds when the permit is in the
  counter, and otherwise changes nothing (`Unstuck`).

  The longest wait is the earliest first poll, which the history of the
  semaphore records; that no two first polls coincide is an invariant of its own
  (`exec_distinct`).
-/
import LocalSync.Equiv.OnceCell
import LocalSync.Equiv.SemaphoreRuns

namespace LocalSync.OnceCell

open Lib
open Semaphore (Tracked Fair Slots Inner wakesOf)

variable {P : PointerWidth} {T E W : Type} [Waker W]

/-! ### First polls do not coincide -/

section History

variable {c d : OnceCell P T W} {s t : System P T W} {e : Action T E W} {o : Answer T E}
  {i : Addr} {v : T}

omit [Waker W] in
theorem history_dropPermit {n : UInt32} (h : c.dropPermit n = .ok d) :
    d.semaphore.history = c.semaphore.history := by
  obtain ⟨y, hy, h⟩ := bind_eq_ok.mp h
  obtain rfl := Except.ok.inj h
  exact Tracked.history_release (Inner.fault_eq_ok.mp hy)

omit [Waker W] in
theorem history_setValue {n : UInt32} {r : T} (h : c.setValue v n = .ok (r, d)) :
    d.semaphore.history = c.semaphore.history := by
  obtain ⟨y, hy, h⟩ := bind_eq_ok.mp h
  obtain ⟨c', hc', h⟩ := bind_eq_ok.mp h
  obtain ⟨v', -, h⟩ := bind_eq_ok.mp h
  obtain ⟨-, rfl⟩ := Prod.mk.inj (Except.ok.inj h)
  exact (history_dropPermit hc').trans (Tracked.history_close (Inner.fault_eq_ok.mp hy))

omit [Waker W] in
theorem history_set {r : Except (SetError T) Unit} (h : c.set v = .ok (r, d)) :
    d.semaphore.history = c.semaphore.history := by
  unfold set at h
  split_ifs at h
  · obtain ⟨-, rfl⟩ := Prod.mk.inj (Except.ok.inj h)
    rfl
  · obtain ⟨⟨r', y⟩, hy, h⟩ := bind_eq_ok.mp h
    have hhist := Tracked.history_tryAcquire (Inner.fault_eq_ok.mp hy)
    cases r' with
    | ok u =>
      obtain ⟨-, -, h⟩ := bind_eq_ok.mp h
      obtain ⟨⟨v', c'⟩, hc', h⟩ := bind_eq_ok.mp h
      obtain ⟨-, rfl⟩ := Prod.mk.inj (Except.ok.inj h)
      exact (history_setValue hc').trans hhist
    | error e =>
      cases e with
      | closed | noPermits =>
        obtain ⟨-, rfl⟩ := Prod.mk.inj (Except.ok.inj h)
        exact hhist

namespace System

theorem await_distinct {first : Bool} {cx : W} (hd : s.cell.semaphore.history.Distinct)
    (h : s.await i first cx = .ok (o, t)) : t.cell.semaphore.history.Distinct := by
  obtain ⟨⟨r, y⟩, hy, h⟩ := bind_eq_ok.mp h
  have hdy := Tracked.distinct_awaitOne hd (Inner.fault_eq_ok.mp hy)
  match r, h with
  | .pending, h =>
    obtain ⟨-, rfl⟩ := Prod.mk.inj (Except.ok.inj h)
    exact hdy
  | .ready (.ok ()), h =>
    obtain ⟨-, -, h⟩ := bind_eq_ok.mp h
    obtain ⟨-, rfl⟩ := Prod.mk.inj (Except.ok.inj h)
    exact hdy
  | .ready (.error _), h =>
    obtain ⟨-, -, h⟩ := bind_eq_ok.mp h
    obtain ⟨v, -, h⟩ := bind_eq_ok.mp h
    obtain ⟨-, rfl⟩ := Prod.mk.inj (Except.ok.inj h)
    exact hdy

theorem poll_distinct {cx : W} (hd : s.cell.semaphore.history.Distinct)
    (h : s.poll i cx = .ok (o, t)) : t.cell.semaphore.history.Distinct := by
  unfold poll at h
  split at h
  · cases h
  · split_ifs at h
    · obtain ⟨v, -, h⟩ := bind_eq_ok.mp h
      obtain ⟨-, rfl⟩ := Prod.mk.inj (Except.ok.inj h)
      exact hd
    · exact await_distinct hd h
  · exact await_distinct hd h
  · obtain ⟨-, rfl⟩ := Prod.mk.inj (Except.ok.inj h)
    exact hd
  · cases h

omit [Waker W] in
theorem initializer_distinct {progress : Progress T E} (hd : s.cell.semaphore.history.Distinct)
    (h : s.initializer i progress = .ok (o, t)) : t.cell.semaphore.history.Distinct := by
  unfold initializer at h
  split at h
  · cases progress with
    | pending =>
      obtain ⟨-, rfl⟩ := Prod.mk.inj (Except.ok.inj h)
      exact hd
    | value v =>
      obtain ⟨⟨v', c⟩, hc, h⟩ := bind_eq_ok.mp h
      obtain ⟨-, rfl⟩ := Prod.mk.inj (Except.ok.inj h)
      exact (history_setValue hc).symm ▸ hd
    | error _ | panic =>
      obtain ⟨c, hc, h⟩ := bind_eq_ok.mp h
      obtain ⟨-, rfl⟩ := Prod.mk.inj (Except.ok.inj h)
      exact (history_dropPermit hc).symm ▸ hd
  · cases h

omit [Waker W] in
theorem cancel_distinct (hd : s.cell.semaphore.history.Distinct) (h : s.cancel i = .ok t) :
    t.cell.semaphore.history.Distinct := by
  unfold cancel at h
  split at h
  · cases h
  · obtain ⟨y, hy, h⟩ := bind_eq_ok.mp h
    obtain rfl := Except.ok.inj h
    exact (Tracked.history_drop (Inner.fault_eq_ok.mp hy)).symm ▸ hd
  · obtain ⟨c, hc, h⟩ := bind_eq_ok.mp h
    obtain rfl := Except.ok.inj h
    exact (history_dropPermit hc).symm ▸ hd
  · obtain rfl := Except.ok.inj h
    exact hd

/-- No step makes two first polls coincide. -/
theorem exec_distinct (hd : s.cell.semaphore.history.Distinct) (h : s.exec e = .ok (o, t)) :
    t.cell.semaphore.history.Distinct := by
  cases e with
  | create i kind =>
    obtain ⟨-, rfl⟩ := Prod.mk.inj (Except.ok.inj h)
    exact hd
  | poll i cx => exact poll_distinct hd h
  | initializer i progress => exact initializer_distinct hd h
  | cancel i =>
    obtain ⟨u, hu, h⟩ := bind_eq_ok.mp h
    obtain ⟨-, rfl⟩ := Prod.mk.inj (Except.ok.inj h)
    exact cancel_distinct hd hu
  | set v =>
    obtain ⟨⟨r, c⟩, hc, h⟩ := bind_eq_ok.mp h
    obtain ⟨-, rfl⟩ := Prod.mk.inj (Except.ok.inj h)
    exact (history_set hc).symm ▸ hd
  | get =>
    obtain ⟨r, -, h⟩ := bind_eq_ok.mp h
    obtain ⟨-, rfl⟩ := Prod.mk.inj (Except.ok.inj h)
    exact hd
  | take =>
    obtain ⟨⟨r, c⟩, hc, h⟩ := bind_eq_ok.mp h
    obtain ⟨-, rfl⟩ := Prod.mk.inj (Except.ok.inj h)
    obtain ⟨v, -, hc⟩ := bind_eq_ok.mp hc
    obtain ⟨-, rfl⟩ := Prod.mk.inj (Except.ok.inj hc)
    exact .new W

end System

end History

/-! ### Where the permit is -/

namespace System

variable {s t : System P T W} {a : Fair W} {holder : Option Addr} {i j : Addr} {v : T}

/-- The permits in the counter of the cell's semaphore. -/
def permits (s : System P T W) : ℕ := s.cell.semaphore.inner.availablePermits

/-- When the call at `i` was first polled for the permit. -/
def firstPoll (s : System P T W) (i : Addr) : ℕ := (s.cell.semaphore.history.track i).firstPoll

/-- The call at `i` waits although it has been assigned the permit. -/
def assigned (s : System P T W) (i : Addr) : Bool :=
  s.waiting i && (s.cell.semaphore.inner.acquires.get? i).any fun q => q.queued && q.node.state == 0

/-- The waker of the last poll of the call at `i` has been woken since that poll. -/
def awakened (s : System P T W) (i : Addr) : Prop :=
  ∃ w m, (s.cell.semaphore.history.track i).pending = some (w, m) ∧
    ∃ w' ∈ (wakesOf i s.cell.semaphore.inner.woken).drop m, Waker.task w' = Waker.task w

/-- The places the one permit can be at. -/
inductive Place where
  /-- In the counter. -/
  | counter
  /-- With the call at `i`, which runs its initialiser. -/
  | running (i : Addr)
  /-- Assigned to the call at `i`, which waits. -/
  | assigned (i : Addr)
  deriving DecidableEq

/-- The permit is at a place. -/
def PermitAt (s : System P T W) : Place → Prop
  /- It is available, and no call is in the wait list of the semaphore. -/
  | .counter => s.permits = 1 ∧ s.cell.semaphore.inner.WaitList []
  | .running i => s.stage i = some (.initializing 1)
  /- The call has waited longer than all other calls that wait, and its waker has been woken since
  its last poll. -/
  | .assigned i => s.assigned i = true ∧
      (∀ j, s.waiting j = true → j ≠ i → s.firstPoll i < s.firstPoll j) ∧ s.awakened i

/-- **A cell that is not stuck**, and what `set` does with it. -/
structure Unstuck (s : System P T W) : Prop where
  /-- Before the value is set, the permit is at exactly one place. -/
  place : s.cell.valueSet = false → ∃! x, s.PermitAt x
  /-- A permit in the counter is not waited for. -/
  free : s.cell.valueSet = false → 0 < s.permits → s.PermitAt .counter
  /-- Whoever has been assigned the permit has waited longest and has been woken. -/
  assigned : s.cell.valueSet = false → ∀ i, s.assigned i = true → s.PermitAt (.assigned i)
  /-- `set` writes the value exactly if the permit is in the counter; otherwise it returns the value
  and leaves the cell as it is. -/
  set : ∀ v, ∃ r c, s.cell.set v = .ok (r, c) ∧
    (r = .ok () ↔ s.cell.valueSet = false ∧ s.PermitAt .counter) ∧
    (r = .error (.initializing v) ↔
      s.cell.valueSet = false ∧ ∃ x, x ≠ .counter ∧ s.PermitAt x) ∧
    (r = .error (.alreadyInitialized v) ↔ s.cell.valueSet = true) ∧
    (r ≠ .ok () → c = s.cell)

theorem Inv.assigned_iff (h : Inv s a holder) :
    s.assigned i = true ↔ s.waiting i = true ∧ a.need i = 0 := by
  obtain ⟨b, n, -, hslots⟩ := h.cell.slots
  rw [assigned, Bool.and_eq_true]
  exact and_congr_right fun hi => hslots.served_iff hi

/-- Whoever has been assigned the permit has waited longest, and has been woken. -/
theorem Inv.permitAt_assigned (h : Inv s a holder) (hd : s.cell.semaphore.history.Distinct)
    (hv : s.cell.valueSet = false) (hi : s.assigned i = true) : s.PermitAt (.assigned i) := by
  obtain ⟨hwait, hneed⟩ := h.assigned_iff.mp hi
  obtain ⟨-, -, hopen, hslots⟩ := h.cell.unset hv
  have hinside := hslots.inside
  have hnot := hslots.not_mem_waiting hwait hneed
  refine ⟨hi, fun j hj hne => ?_, hslots.woken hwait hnot⟩
  have hmem : j ∈ a.waiting := hslots.mem_waiting hopen hj fun hneed' =>
    hne (hslots.served_unique (by omega) hwait hneed hj hneed')
  refine lt_of_le_of_ne (hslots.first_come hwait hnot hmem) fun heq => hne ?_
  have hpos := hslots.models.chronicle.polled_of_mem hslots.models.sound hmem
  exact hd.inj j i hpos heq.symm

/-- A permit in the counter is not waited for. -/
theorem Inv.permitAt_counter (h : Inv s a holder) (hv : s.cell.valueSet = false)
    (hpos : 0 < a.available) : s.PermitAt .counter := by
  obtain ⟨-, -, -, hslots⟩ := h.cell.unset hv
  have hinside := hslots.inside
  have hle : a.available ≤ a.inside := Nat.le_add_right _ _
  have havailable : s.permits = a.available := hslots.models.refines.availablePermits
  have hqueue := hslots.models.refines.queue
  have hempty : a.waiting = [] := by
    by_contra hne
    have := hslots.models.sound.exhausted hne
    omega
  rw [hempty] at hqueue
  exact ⟨by omega, hqueue⟩

/-- A permit that is not in the counter is somewhere else. -/
theorem Inv.exists_permitAt (h : Inv s a holder) (hd : s.cell.semaphore.history.Distinct)
    (hv : s.cell.valueSet = false) (hav : a.available = 0) :
    ∃ x, x ≠ .counter ∧ s.PermitAt x := by
  obtain ⟨-, -, -, hslots⟩ := h.cell.unset hv
  have hinside := hslots.inside
  cases holder with
  | some i => exact ⟨.running i, by simp, (h.stage i 1).mpr ⟨rfl, rfl⟩⟩
  | none =>
    rw [Option.elim_none, Nat.add_zero] at hinside
    obtain ⟨i, hi, hneed⟩ := hslots.exists_served (by omega)
    exact ⟨.assigned i, by simp,
      h.permitAt_assigned hd hv (h.assigned_iff.mpr ⟨hi, hneed⟩)⟩

/-- It is at one place only. -/
theorem Inv.permitAt_unique (h : Inv s a holder) (hv : s.cell.valueSet = false) {x y : Place}
    (hx : s.PermitAt x) (hy : s.PermitAt y) : x = y := by
  obtain ⟨-, -, -, hslots⟩ := h.cell.unset hv
  have hinside := hslots.inside
  have havailable : s.permits = a.available := hslots.models.refines.availablePermits
  -- the permit is inside, unless some call runs its initialiser
  have hrunning : ∀ i, s.PermitAt (.running i) → holder = some i ∧ a.inside = 0 := by
    intro i hi
    obtain ⟨hholder, -⟩ := (h.stage i 1).mp hi
    rw [hholder, Option.elim_some] at hinside
    exact ⟨hholder, by omega⟩
  have hcounter : s.PermitAt .counter → 1 ≤ a.available := fun hc => by
    rw [← havailable, hc.1]
  have hassigned : ∀ i, s.PermitAt (.assigned i) → s.waiting i = true ∧ a.need i = 0 ∧
      a.available + 1 ≤ a.inside := by
    intro i hi
    obtain ⟨hwait, hneed⟩ := h.assigned_iff.mp hi.1
    have hbalance := hslots.inside_of_served hwait hneed
    exact ⟨hwait, hneed, by omega⟩
  have hle : a.available ≤ a.inside := Nat.le_add_right _ _
  cases x with
  | counter =>
    have h₁ := hcounter hx
    cases y with
    | counter => rfl
    | running j =>
      have := (hrunning j hy).2
      omega
    | assigned j =>
      have := (hassigned j hy).2.2
      omega
  | running i =>
    obtain ⟨hi, h₁⟩ := hrunning i hx
    cases y with
    | counter =>
      have := hcounter hy
      omega
    | running j =>
      obtain ⟨hj, -⟩ := hrunning j hy
      rw [Option.some.inj (hi.symm.trans hj)]
    | assigned j =>
      have := (hassigned j hy).2.2
      omega
  | assigned i =>
    obtain ⟨hi, hneed, h₁⟩ := hassigned i hx
    cases y with
    | counter =>
      have := hcounter hy
      omega
    | running j =>
      have := (hrunning j hy).2
      omega
    | assigned j =>
      obtain ⟨hj, hneed', -⟩ := hassigned j hy
      rw [hslots.served_unique (by omega) hi hneed hj hneed']

/-! ### `set` -/

/-- `set` on a cell without a value, by what the counter holds. -/
theorem set_unset (h : Inv s a holder) (hv : s.cell.valueSet = false) (v : T) :
    (a.available = 0 → s.cell.set v = .ok (.error (.initializing v), s.cell)) ∧
      (0 < a.available → ∃ c, s.cell.set v = .ok (.ok (), c)) := by
  obtain ⟨-, -, hopen, hslots⟩ := h.cell.unset hv
  obtain ⟨y, hres, -⟩ := hslots.tryAcquire one_le
  have h1 : (1 : UInt32).toNat = 1 := rfl
  constructor
  · intro hav
    have htry : (a.tryAcquire 1).1 = .error .noPermits := by
      rw [Fair.tryAcquire, hopen, if_neg Bool.false_ne_true, if_pos (by omega)]
    rw [htry] at hres
    obtain rfl := Tracked.eq_of_tryAcquire_error hres
    simp only [OnceCell.set, initialized, hv, Bool.false_eq_true, if_false, hres,
      Semaphore.Inner.fault_ok, ok_bind]
    rw [← hv]
    rfl
  · intro hav
    have htry : (a.tryAcquire 1).1 = .ok () := by
      rw [Fair.tryAcquire, hopen, if_neg Bool.false_ne_true, if_neg (by omega)]
    obtain ⟨r, c, a', hset, -⟩ := set_spec h.cell v
    refine ⟨c, ?_⟩
    have hset' := hset
    rw [htry] at hres
    simp only [OnceCell.set, initialized, hv, Bool.false_eq_true, if_false, hres,
      Semaphore.Inner.fault_ok, ok_bind] at hset'
    obtain ⟨-, -, hset'⟩ := bind_eq_ok.mp hset'
    obtain ⟨p, -, hset'⟩ := bind_eq_ok.mp hset'
    rw [hset, ← (Prod.mk.inj (Except.ok.inj hset')).1]

/-- The invariant says where the permit is. -/
theorem Inv.unstuck_of_distinct (h : Inv s a holder) (hd : s.cell.semaphore.history.Distinct) :
    Unstuck s where
  place hv := by
    obtain ⟨x, hx⟩ : ∃ x, s.PermitAt x := by
      by_cases hav : a.available = 0
      · obtain ⟨x, -, hx⟩ := h.exists_permitAt hd hv hav
        exact ⟨x, hx⟩
      · exact ⟨.counter, h.permitAt_counter hv (Nat.pos_of_ne_zero hav)⟩
    exact ⟨x, hx, fun y hy => h.permitAt_unique hv hy hx⟩
  free hv hpos := by
    obtain ⟨-, -, -, hslots⟩ := h.cell.unset hv
    have havailable : s.permits = a.available := hslots.models.refines.availablePermits
    exact h.permitAt_counter hv (havailable ▸ hpos)
  assigned hv i hi := h.permitAt_assigned hd hv hi
  set v := by
    by_cases hv : s.cell.valueSet = true
    · refine ⟨.error (.alreadyInitialized v), s.cell, ?_, ?_⟩
      · rw [OnceCell.set, initialized, if_pos hv]
        rfl
      · simp [hv]
    · have hv : s.cell.valueSet = false := Bool.eq_false_iff.mpr hv
      obtain ⟨hfull, hfree⟩ := set_unset h hv v
      by_cases hav : a.available = 0
      · obtain ⟨x, hne, hx⟩ := h.exists_permitAt hd hv hav
        have hnot : ¬ s.PermitAt .counter := fun hc => hne (h.permitAt_unique hv hx hc)
        refine ⟨_, _, hfull hav, ?_, ?_, ?_, fun _ => rfl⟩
        · simp [hnot]
        · exact iff_of_true rfl ⟨hv, x, hne, hx⟩
        · simp [hv]
      · have hc := h.permitAt_counter hv (Nat.pos_of_ne_zero hav)
        have hnot : ¬ ∃ x, x ≠ .counter ∧ s.PermitAt x := by
          rintro ⟨x, hne, hx⟩
          exact hne (h.permitAt_unique hv hx hc)
        obtain ⟨c, hset⟩ := hfree (Nat.pos_of_ne_zero hav)
        refine ⟨_, c, hset, ?_⟩
        simp [hv, hnot, hc]

end System

/-- **A failed or cancelled initialisation does not leave the cell stuck**: in every state of every
run the permit is where it can be used, and `set` answers accordingly. -/
theorem unstuck {es : List (Action T E W × Answer T E)} {s : System P T W}
    (hrun : Run System.Step (System.of (new P T W)) es s) : System.Unstuck s := by
  have hinv : ∃ a holder, System.Inv s a holder := System.run_inv hrun (System.of_inv new_holds)
  have hdistinct : s.cell.semaphore.history.Distinct := by
    refine hrun.invariant (I := fun u => u.cell.semaphore.history.Distinct) ?_ (.new W)
    rintro u ⟨e, o⟩ v hd ⟨-, hres⟩
    exact System.exec_distinct hd hres
  obtain ⟨a, holder, h⟩ := hinv
  exact h.unstuck_of_distinct hdistinct

/-- A run in which the permit is passed on twice: the initialiser of the first call fails, the
second call is cancelled before it notices its permit, and the third one is assigned it. -/
theorem unstuck_passed_on : ∃ (es : List (Action ℕ ℕ ℕ × Answer ℕ ℕ)) (s : System .w64 ℕ ℕ),
    Run System.Step (System.of (new .w64 ℕ ℕ)) es s ∧ s.assigned 3 = true ∧ System.Unstuck s := by
  have hcheck : (replay (attempt System.Allowed System.exec) (System.of (new .w64 ℕ ℕ))
      [.create 1 .tryInit, .poll 1 10, .create 2 .init, .poll 2 20, .create 3 .init, .poll 3 30,
        .create 4 .init, .poll 4 40, .initializer 1 (.error 5), .cancel 2, .set 6]).map
      (fun r => r.2.assigned 3) = some true := by
    decide +kernel
  obtain ⟨⟨es, s⟩, hres, hs⟩ := Option.map_eq_some_iff.mp hcheck
  have hrun : Run System.Step _ es s := run_of_replay (fun _ _ _ _ => of_attempt) hres
  exact ⟨es, s, hrun, hs, unstuck hrun⟩

end LocalSync.OnceCell
