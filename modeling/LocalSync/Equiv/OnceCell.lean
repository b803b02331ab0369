/-
  A once cell is written at most once, and everybody gets that value.

  The invariant (`System.Inv`) is the one of the module comment in the source:
  the semaphore is closed exactly when `value_set` is true, and before that its
  one permit is inside or with the future that runs its initialiser.  `holder`
  is that future.  Every step that is allowed returns and keeps the invariant
  (`exec_spec`); `Agreement` is read off it.
-/
import LocalSync.Equiv.Slots
import LocalSync.OnceCell

namespace LocalSync.OnceCell

open Lib
open Semaphore (Tracked Fair Slots Inner suspend resumed resumed_eq_self one_le_maxPermits)

variable {P : PointerWidth} {T E W : Type} [Waker W]

/-- **The state of a cell** whose semaphore stands for `a`: of its `b` permits `n` are out. -/
structure Holds (c : OnceCell P T W) (waiting : Addr → Bool) (a : Fair W) (holder : Option Addr) :
    Prop where
  /-- Before the value is set, the one permit is inside or with the holder. -/
  unset : c.valueSet = false → c.value = none ∧ c.written = [] ∧ a.closed = false ∧
    Slots 1 waiting a c.semaphore (holder.elim 0 fun _ => 1)
  /-- Once it is set, the semaphore is closed and nobody holds the permit. -/
  set : c.valueSet = true → holder = none ∧ a.closed = true ∧
    (∃ v, c.value = some v ∧ c.written = [v]) ∧ ∃ b n, b ≤ 1 ∧ Slots b waiting a c.semaphore n

variable {c : OnceCell P T W} {p : Addr → Bool} {a : Fair W} {holder : Option Addr} {i : Addr}
  {v : T}

theorem one_le : 1 ≤ Inner.maxPermits P := one_le_maxPermits P

namespace Holds

/-- The counts of the semaphore, in either state. -/
theorem slots (h : Holds c p a holder) :
    ∃ b n, b ≤ Inner.maxPermits P ∧ Slots b p a c.semaphore n := by
  cases hv : c.valueSet with
  | false => exact ⟨1, _, one_le, (h.unset hv).2.2.2⟩
  | true =>
    obtain ⟨b, n, hb, hslots⟩ := (h.set hv).2.2.2
    exact ⟨b, n, hb.trans one_le, hslots⟩

/-- The semaphore is closed exactly when the value is set. -/
theorem closed_eq (h : Holds c p a holder) : a.closed = c.valueSet := by
  cases hv : c.valueSet with
  | false => exact (h.unset hv).2.2.1
  | true => exact (h.set hv).2.1

/-- Reading a slot that is set gives the value that was written. -/
theorem getUnchecked_spec (h : Holds c p a holder) (hv : c.valueSet = true) :
    ∃ v, c.getUnchecked = .ok v ∧ c.written = [v] := by
  obtain ⟨v, hval, hw⟩ := (h.set hv).2.2.1
  exact ⟨v, by rw [getUnchecked, hval], hw⟩

/-- The slot has been written when the value is set, and only once. -/
theorem written_eq (h : Holds c p a holder) :
    c.written.length ≤ 1 ∧ (c.valueSet = true ↔ c.written ≠ []) := by
  by_cases hv : c.valueSet = true
  · obtain ⟨v, -, hw⟩ := h.getUnchecked_spec hv
    simp [hv, hw]
  · simp [hv, (h.unset (Bool.eq_false_iff.mpr hv)).2.1]

/-- While somebody holds the permit, the value is not set. -/
theorem valueSet_of_holder (h : Holds c p a (some i)) : c.valueSet = false := by
  by_contra hne
  have hnone := (h.set (Bool.not_eq_false _ ▸ hne)).1
  cases hnone

theorem written_of_holder (h : Holds c p a (some i)) : c.written = [] :=
  (h.unset h.valueSet_of_holder).2.1

/-- **Dropping a waiting caller** gives its permit back, if it has one. -/
theorem cancel (h : Holds c p a holder) (hi : p i = true) :
    ∃ y, c.semaphore.drop i = .ok y ∧
      Holds { c with semaphore := y } (resumed p i) (a.cancel i) holder := by
  by_cases hv : c.valueSet = true
  · obtain ⟨hnone, hclosed, hval, b, n, hb, hslots⟩ := h.set hv
    obtain ⟨y, hres, hy⟩ := hslots.drop (hb.trans one_le) hi
    refine ⟨y, hres, fun hf => absurd (hf.symm.trans hv) Bool.false_ne_true,
      fun _ => ⟨hnone, ?_, hval, b, n, hb, hy⟩⟩
    rw [Fair.closed_cancel, hclosed]
  · obtain ⟨hval, hw, hclosed, hslots⟩ := h.unset (Bool.eq_false_iff.mpr hv)
    obtain ⟨y, hres, hy⟩ := hslots.drop one_le hi
    refine ⟨y, hres, fun _ => ⟨hval, hw, ?_, hy⟩, fun ht => absurd ht hv⟩
    rw [Fair.closed_cancel, hclosed]

end Holds

theorem new_holds : Holds (new P T W) (fun _ => false) (Fair.new W 1) none where
  unset _ := ⟨rfl, rfl, rfl, .new one_le⟩
  set hv := by cases hv

/-- A cell built from a value. -/
theorem fromValue_spec (v : T) :
    ∃ c a, fromValue P W v = .ok c ∧ Holds c (fun _ => false) a none := by
  obtain ⟨y, hres, hy⟩ := (Slots.new (P := P) (W := W) (Nat.zero_le _)).close
  refine ⟨{ valueSet := true, value := some v, semaphore := y, written := [v] },
    (Fair.new W 0).close, ?_, ?_, ?_⟩
  · rw [fromValue, hres]
    rfl
  · intro hv
    cases hv
  · exact fun _ => ⟨rfl, Fair.closed_close _, ⟨v, rfl, rfl⟩, 0, 0, Nat.zero_le _, hy⟩

/-- The holder gives its permit back. -/
theorem dropPermit_spec (h : Holds c p a (some i)) :
    ∃ c', c.dropPermit 1 = .ok c' ∧ Holds c' p (a.release 1) none := by
  have hv := h.valueSet_of_holder
  obtain ⟨hval, hw, hc, hslots⟩ := h.unset hv
  obtain ⟨y, hres, hy⟩ := Slots.release (n := 0) (k := 1) hslots one_le
  refine ⟨{ c with semaphore := y }, ?_, fun _ => ⟨hval, hw, ?_, hy⟩, fun ht => ?_⟩
  · rw [dropPermit, show (1 : UInt32).toNat = 1 from rfl, hres]
    rfl
  · rw [Fair.closed_release, hc]
  · rw [show c.valueSet = true from ht] at hv
    cases hv

/-- `get` gives the value that was written, if there is one. -/
theorem Holds.get_spec (h : Holds c p a holder) : c.get = .ok c.written.head? := by
  by_cases hv : c.valueSet = true
  · obtain ⟨v, hget, hw⟩ := h.getUnchecked_spec hv
    rw [get, initialized, if_pos hv, hget, hw]
    rfl
  · have hw := (h.unset (Bool.eq_false_iff.mpr hv)).2.1
    rw [get, initialized, if_neg hv, hw]
    rfl

/-- The destructor drops the value that was written, if there is one, and nothing else. -/
theorem Holds.dropped_spec (h : Holds c p a holder) : c.dropped = .ok c.written.head? := by
  by_cases hv : c.valueSet = true
  · obtain ⟨v, hget, hw⟩ := h.getUnchecked_spec hv
    rw [dropped, if_pos hv, hget, hw]
    rfl
  · have hw := (h.unset (Bool.eq_false_iff.mpr hv)).2.1
    rw [dropped, if_neg hv, hw]
    rfl

theorem Holds.drop_spec (h : Holds c p a holder) : c.drop = .ok () := by
  rw [drop, h.dropped_spec]
  rfl

theorem Holds.intoInner_spec (h : Holds c p a holder) : c.intoInner = .ok c.written.head? := by
  by_cases hv : c.valueSet = true
  · obtain ⟨v, hget, hw⟩ := h.getUnchecked_spec hv
    rw [intoInner, if_pos hv, hget, hw]
    rfl
  · have hw := (h.unset (Bool.eq_false_iff.mpr hv)).2.1
    rw [intoInner, if_neg hv, h.drop_spec, hw]
    rfl

/-- **The holder writes the value**, and gets a reference to it. -/
theorem setValue_spec (h : Holds c p a (some i)) (v : T) :
    ∃ c' a', c.setValue v 1 = .ok (v, c') ∧ Holds c' p a' none ∧ c'.written = [v] := by
  have hv := h.valueSet_of_holder
  obtain ⟨-, hw, -, hslots⟩ := h.unset hv
  obtain ⟨y, hclose, hy⟩ := hslots.close
  obtain ⟨z, hrelease, hz⟩ := Slots.release (k := 0) hy one_le
  refine ⟨{ valueSet := true, value := some v, semaphore := z, written := c.written ++ [v] },
    a.close.release 0, ?_, ⟨fun ht => ?_, fun _ => ⟨rfl, ?_, ⟨v, rfl, ?_⟩, 1, _, le_rfl, hz⟩⟩, ?_⟩
  · simp only [setValue, hclose, Semaphore.Inner.fault_ok, ok_bind, forgetPermit, dropPermit]
    rw [show (0 : UInt32).toNat = 0 from rfl, hrelease]
    rfl
  · cases ht
  · rw [Fair.closed_release, Fair.closed_close]
  · rw [hw]
    rfl
  · rw [hw]
    rfl

/-- **`set`** writes the value when the permit is free, and else changes nothing. -/
theorem set_spec (h : Holds c p a holder) (v : T) :
    ∃ r c' a', c.set v = .ok (r, c') ∧ Holds c' p a' holder ∧ c.written <+: c'.written := by
  by_cases hv : c.valueSet = true
  · refine ⟨.error (.alreadyInitialized v), c, a, ?_, h, List.prefix_rfl⟩
    rw [set, initialized, if_pos hv]
    rfl
  · have hv : c.valueSet = false := Bool.eq_false_iff.mpr hv
    obtain ⟨hval, hw, hc, hslots⟩ := h.unset hv
    obtain ⟨y, hres, hy⟩ := hslots.tryAcquire one_le
    obtain ⟨a', ha'⟩ : ∃ a', a' = (a.tryAcquire 1).2 := ⟨_, rfl⟩
    rw [← ha'] at hy
    -- nothing but the semaphore has changed
    have hholds : ∀ holder', a'.closed = false → Slots 1 p a' y (holder'.elim 0 fun _ => 1) →
        Holds { c with semaphore := y } p a' holder' := fun holder' hclosed hq =>
      ⟨fun _ => ⟨hval, hw, hclosed, hq⟩, fun ht => absurd (hv.symm.trans ht) Bool.false_ne_true⟩
    cases hr : (a.tryAcquire 1).1 with
    | ok u =>
      rw [hr, if_pos rfl] at hy
      -- the one permit was not with somebody else
      have hinside := hy.inside
      have hnone : holder = none := by
        cases holder with
        | none => rfl
        | some j =>
          simp only [Option.elim_some] at hinside
          omega
      subst hnone
      have hclosed : a'.closed = false := by
        rw [ha', Fair.tryAcquire, hc]
        split_ifs <;> exact hc
      obtain ⟨c', a'', hres', h', -⟩ := setValue_spec (hholds (some 0) hclosed hy) v
      rw [hv] at hres'
      refine ⟨.ok (), c', a'', ?_, h', hw ▸ List.nil_prefix⟩
      simp only [set, initialized, hv, Bool.false_eq_true, if_false, hres, hr,
        Semaphore.Inner.fault_ok, ok_bind, Bool.not_false, assert_true]
      rw [hres']
      rfl
    | error e =>
      obtain rfl : a' = a := ha'.trans (Fair.tryAcquire_error hr)
      rw [hr, if_neg (by simp)] at hy
      cases e with
      | noPermits =>
        refine ⟨.error (.initializing v), _, a', ?_, hholds holder hc hy, List.prefix_rfl⟩
        simp only [set, initialized, hv, Bool.false_eq_true, if_false, hres, hr,
          Semaphore.Inner.fault_ok, ok_bind]
        rfl
      | closed =>
        refine ⟨.error (.alreadyInitialized v), _, a', ?_, hholds holder hc hy, List.prefix_rfl⟩
        simp only [set, initialized, hv, Bool.false_eq_true, if_false, hres, hr,
          Semaphore.Inner.fault_ok, ok_bind]
        rfl

/-- **Awaiting the permit.** While the value is not set, the caller waits or becomes the holder;
once it is set, the caller may go on. -/
theorem awaitOne_spec (h : Holds c p a holder) {first : Bool} (hi : p i = !first) (cx : W) :
    ∃ y a', c.semaphore.awaitOne i first cx = .ok ((a.awaitOne i first cx).1, y) ∧
      match (a.awaitOne i first cx).1 with
      | .pending => Holds { c with semaphore := y } (suspend p i) a' holder
      | .ready (.ok ()) => c.valueSet = false ∧ holder = none ∧
          Holds { c with semaphore := y } (resumed p i) a' (some i)
      | .ready (.error _) => c.valueSet = true ∧
          Holds { c with semaphore := y } (resumed p i) a' holder := by
  have hclosed := (Slots.closed_awaitOne a i first cx).trans h.closed_eq
  have hc := h.closed_eq
  obtain ⟨a', ha'⟩ : ∃ a', a' = (a.awaitOne i first cx).2 := ⟨_, rfl⟩
  rw [← ha'] at hclosed
  by_cases hv : c.valueSet = true
  · obtain ⟨hnone, -, hval, b, n, hb, hslots⟩ := h.set hv
    obtain ⟨y, hres, hr⟩ := hslots.awaitOne (hb.trans one_le) hi cx
    refine ⟨y, a', hres, ?_⟩
    rw [hv] at hclosed hc
    have hholds : ∀ q m, Slots b q a' y m → Holds { c with semaphore := y } q a' holder :=
      fun q m hq => ⟨fun hf => absurd (hf.symm.trans hv) Bool.false_ne_true,
        fun _ => ⟨hnone, hclosed, hval, b, m, hb, hq⟩⟩
    rw [← ha'] at hr
    cases hp : (a.awaitOne i first cx).1 with
    | pending =>
      rw [hp] at hr
      exact hholds _ _ hr
    | ready e =>
      rw [hp] at hr
      obtain ⟨he, hslots'⟩ := hr
      obtain rfl := he.mp hc
      exact ⟨hv, hholds _ _ hslots'⟩
  · have hv : c.valueSet = false := Bool.eq_false_iff.mpr hv
    obtain ⟨hval, hw, -, hslots⟩ := h.unset hv
    obtain ⟨y, hres, hr⟩ := hslots.awaitOne one_le hi cx
    refine ⟨y, a', hres, ?_⟩
    rw [hv] at hclosed hc
    -- nothing but the semaphore changes
    have hholds : ∀ q holder', Slots 1 q a' y (holder'.elim 0 fun _ => 1) →
        Holds { c with semaphore := y } q a' holder' := fun q holder' hq =>
      ⟨fun _ => ⟨hval, hw, hclosed, hq⟩, fun ht => absurd (hv.symm.trans ht) Bool.false_ne_true⟩
    rw [← ha'] at hr
    cases hp : (a.awaitOne i first cx).1 with
    | pending =>
      rw [hp] at hr
      exact hholds _ _ hr
    | ready e =>
      rw [hp] at hr
      obtain ⟨he, hslots'⟩ := hr
      rw [hc, if_neg Bool.false_ne_true] at hslots'
      cases e with
      | error e =>
        cases e
        exact absurd (he.mpr rfl) (by rw [hc]; exact Bool.false_ne_true)
      | ok u =>
        -- the one permit was not with somebody else
        have hinside := hslots'.inside
        have hnone : holder = none := by
          cases holder with
          | none => rfl
          | some j =>
            simp only [Option.elim_some] at hinside
            omega
        subst hnone
        exact ⟨hv, rfl, hholds _ (some i) hslots'⟩

namespace System

/-- **The invariant of the system**: the holder is the future that runs its initialiser. -/
structure Inv (s : System P T W) (a : Fair W) (holder : Option Addr) : Prop where
  cell : Holds s.cell s.waiting a holder
  stage : ∀ i n, s.stage i = some (.initializing n) ↔ holder = some i ∧ n = 1

/-- What an answer says about the cell. -/
def Truthful (s t : System P T W) : Answer T E → Prop
  | .value v => t.cell.written = [v]
  | .initializes => s.cell.valueSet = false
  | .got r => r = s.cell.written.head?
  | .taken r => r = s.cell.written.head?
  | _ => True

variable {s : System P T W} {stage : Stage} {o : Option T}

omit [Waker W] in
theorem stage_setStage (s : System P T W) (i : Addr) (stage : Stage) (j : Addr) :
    (s.setStage i stage).stage j = if j = i then (s.stage i).map fun _ => stage else s.stage j := by
  unfold System.stage setStage
  rw [Store.get?_modify]
  split_ifs with hj
  · rw [hj, Option.map_map, Option.map_map]
    rfl
  · rfl

omit [Waker W] in
theorem stage_erase (s : System P T W) (i j : Addr) :
    ({ s with futures := s.futures.erase i } : System P T W).stage j =
      if j = i then none else s.stage j := by
  unfold System.stage
  rw [Store.get?_erase]
  split_ifs <;> rfl

omit [Waker W] in
theorem waiting_eq (hi : s.stage i = some stage) : s.waiting i = (stage == .waiting) := by
  rw [waiting, hi]
  rfl

omit [Waker W] in
/-- A future that starts to wait. -/
theorem waiting_setStage_waiting (hi : s.stage i = some stage) :
    (s.setStage i .waiting).waiting = suspend s.waiting i := by
  funext j
  rw [waiting, stage_setStage, suspend]
  by_cases hj : j = i
  · subst hj
    simp [hi]
  · simp [hj, waiting]

omit [Waker W] in
/-- A future that does not wait any more. -/
theorem waiting_setStage (hne : stage ≠ .waiting) :
    (s.setStage i stage).waiting = resumed s.waiting i := by
  funext j
  rw [waiting, stage_setStage, resumed]
  by_cases hj : j = i
  · subst hj
    cases s.stage j <;> simp [hne]
  · simp [hj, waiting]

theorem of_inv (h : Holds c (fun _ => false) a none) : Inv (System.of c) a none where
  cell := by
    have hnone : (System.of c).waiting = fun _ => false := by
      funext i
      simp [waiting, System.stage, System.of]
    rw [hnone]
    exact h
  stage i n := by simp [System.stage, System.of]

/-! ### Who initialises -/

section Stage

variable (hs : ∀ i n, s.stage i = some (.initializing n) ↔ holder = some i ∧ n = 1)
include hs

omit [Waker W] in
/-- A future at another stage is not the holder. -/
theorem holder_ne (hi : s.stage i = some stage) (hne : ∀ n, stage ≠ .initializing n) :
    holder ≠ some i := fun hh => by
  rw [(hs i 1).mpr ⟨hh, rfl⟩] at hi
  exact hne 1 (Option.some.inj hi).symm

omit [Waker W] in
/-- A future that is not the holder moves on. -/
theorem stage_keep (hi : holder ≠ some i) (hne : ∀ n, stage ≠ .initializing n) (j : Addr)
    (n : UInt32) :
    (s.setStage i stage).stage j = some (.initializing n) ↔ holder = some j ∧ n = 1 := by
  rw [stage_setStage]
  by_cases hj : j = i
  · subst hj
    rw [if_pos rfl]
    constructor
    · intro h
      obtain ⟨-, -, h⟩ := Option.map_eq_some_iff.mp h
      exact absurd h (hne n)
    · exact fun h => absurd h.1 hi
  · rw [if_neg hj]
    exact hs j n

omit [Waker W] in
/-- The holder moves on. -/
theorem stage_release (hi : holder = some i) (hne : ∀ n, stage ≠ .initializing n) (j : Addr)
    (n : UInt32) :
    (s.setStage i stage).stage j = some (.initializing n) ↔
      (none : Option Addr) = some j ∧ n = 1 := by
  refine ⟨fun h => ?_, fun h => nomatch h.1⟩
  rw [stage_setStage] at h
  split_ifs at h with hj
  · obtain ⟨-, -, h⟩ := Option.map_eq_some_iff.mp h
    exact absurd h (hne n)
  · have hh := ((hs j n).mp h).1
    rw [hi] at hh
    exact absurd (Option.some.inj hh).symm hj

omit [Waker W] in
/-- A future becomes the holder. -/
theorem stage_take (hnone : holder = none) (hi : s.stage i = some stage) (j : Addr) (n : UInt32) :
    (s.setStage i (.initializing 1)).stage j = some (.initializing n) ↔
      some i = some j ∧ n = 1 := by
  rw [stage_setStage]
  by_cases hj : j = i
  · subst hj
    rw [if_pos rfl, hi]
    simp [eq_comm]
  · rw [if_neg hj, hs, hnone]
    simp [Ne.symm hj]

end Stage

/-! ### The steps -/

/-- **Awaiting the permit.** -/
theorem await_spec (h : Inv s a holder) (first : Bool)
    (hi : s.stage i = some (if first then .unresumed else .waiting)) (cx : W) :
    ∃ (o : Answer T E) (t : System P T W) (a' : Fair W) (holder' : Option Addr),
      s.await i first cx = .ok (o, t) ∧ Inv t a' holder' ∧
        s.cell.written <+: t.cell.written ∧ s.Truthful t o := by
  have hwaiting : s.waiting i = !first := by
    rw [waiting_eq hi]
    cases first <;> rfl
  have hholder : holder ≠ some i := holder_ne h.stage hi (by cases first <;> simp)
  obtain ⟨y, a', hres, hr⟩ := awaitOne_spec h.cell hwaiting cx
  obtain ⟨u, hu⟩ : ∃ u : System P T W, u = { s with cell := { s.cell with semaphore := y } } :=
    ⟨_, rfl⟩
  have hstage : u.stage i = some (if first then .unresumed else .waiting) := hu ▸ hi
  have hstages : ∀ j n, u.stage j = some (.initializing n) ↔ holder = some j ∧ n = 1 := by
    subst hu
    exact h.stage
  have hwait : u.waiting = s.waiting := by
    subst hu
    rfl
  have hkept : s.cell.written <+: u.cell.written := by
    subst hu
    exact List.prefix_rfl
  cases hp : (a.awaitOne i first cx).1 with
  | pending =>
    rw [hp] at hr hres
    refine ⟨.pending, u.setStage i .waiting, a', holder, ?_, ⟨?_, ?_⟩, hkept, trivial⟩
    · rw [await, hres, hu]
      rfl
    · rw [waiting_setStage_waiting hstage, hwait]
      exact hu ▸ hr
    · exact stage_keep hstages hholder (by simp)
  | ready e =>
    rw [hp] at hr hres
    cases e with
    | ok x =>
      obtain ⟨hv, hnone, hholds⟩ := hr
      refine ⟨.initializes, u.setStage i (.initializing 1), a', some i, ?_, ⟨?_, ?_⟩, hkept, hv⟩
      · rw [await, hres, hu]
        simp only [Semaphore.Inner.fault_ok, ok_bind, initialized, hv, Bool.not_false, assert_true]
        rfl
      · rw [waiting_setStage (by simp), hwait]
        exact hu ▸ hholds
      · exact stage_take hstages hnone hstage
    | error e =>
      obtain ⟨hv, hholds⟩ := hr
      obtain ⟨v, hget, hwritten⟩ := hholds.getUnchecked_spec hv
      rw [hv] at hget
      refine ⟨.value v, u.setStage i .returned, a', holder, ?_, ⟨?_, ?_⟩, hkept, ?_⟩
      · rw [await, hres, hu]
        simp only [Semaphore.Inner.fault_ok, ok_bind, initialized, hv, assert_true, hget]
        rfl
      · rw [waiting_setStage (by simp), hwait]
        exact hu ▸ hholds
      · exact stage_keep hstages hholder (by simp)
      · subst hu
        exact hwritten

/-- **Polling a future.** -/
theorem poll_spec (h : Inv s a holder) (hi : s.stage i = some stage) (hne : stage ≠ .returned)
    (cx : W) :
    ∃ (o : Answer T E) (t : System P T W) (a' : Fair W) (holder' : Option Addr),
      s.poll i cx = .ok (o, t) ∧ Inv t a' holder' ∧
        s.cell.written <+: t.cell.written ∧ s.Truthful t o := by
  obtain ⟨⟨kind, st⟩, hf, rfl⟩ := Option.map_eq_some_iff.mp hi
  cases st with
  | unresumed =>
    by_cases hv : s.cell.valueSet = true
    · obtain ⟨v, hget, hwritten⟩ := h.cell.getUnchecked_spec hv
      have hwaiting : s.waiting i = false := waiting_eq hi
      refine ⟨.value v, s.setStage i .returned, a, holder, ?_, ⟨?_, ?_⟩, List.prefix_rfl, hwritten⟩
      · simp only [poll, hf, initialized, hv, if_true, hget, ok_bind]
        rfl
      · rw [waiting_setStage (by simp), resumed_eq_self hwaiting]
        exact h.cell
      · exact stage_keep h.stage (holder_ne h.stage hi (by simp)) (by simp)
    · obtain ⟨o, t, a', holder', hres, h'⟩ := await_spec (E := E) h true hi cx
      refine ⟨o, t, a', holder', ?_, h'⟩
      simp only [poll, hf, initialized, hv, if_false, Bool.false_eq_true]
      exact hres
  | waiting =>
    obtain ⟨o, t, a', holder', hres, h'⟩ := await_spec (E := E) h false hi cx
    refine ⟨o, t, a', holder', ?_, h'⟩
    simp only [poll, hf]
    exact hres
  | initializing n =>
    obtain ⟨rfl, -⟩ := (h.stage i n).mp hi
    refine ⟨.initializes, s, a, some i, ?_, h, List.prefix_rfl, h.cell.valueSet_of_holder⟩
    simp only [poll, hf]
  | returned => exact absurd rfl hne

/-- **Polling the initialiser of the holder.** -/
theorem initializer_spec (h : Inv s a holder) {n : UInt32}
    (hi : s.stage i = some (.initializing n)) (progress : Progress T E) :
    ∃ (o : Answer T E) (t : System P T W) (a' : Fair W) (holder' : Option Addr),
      s.initializer i progress = .ok (o, t) ∧ Inv t a' holder' ∧
        s.cell.written <+: t.cell.written ∧ s.Truthful t o := by
  obtain ⟨rfl, rfl⟩ := (h.stage i n).mp hi
  obtain ⟨⟨kind, st⟩, hf, hst⟩ := Option.map_eq_some_iff.mp hi
  obtain rfl : st = .initializing 1 := hst
  have hwaiting : s.waiting i = false := waiting_eq hi
  have hkept : ∀ t : System P T W, s.cell.written <+: t.cell.written := fun t =>
    h.cell.written_of_holder ▸ List.nil_prefix
  -- in all cases but the first the call returns
  have hreturned : ∀ cell a', Holds cell s.waiting a' none →
      Inv (({ s with cell } : System P T W).setStage i .returned) a' none := by
    intro cell a' hholds
    refine ⟨?_, stage_release (s := { s with cell }) h.stage rfl (by simp)⟩
    rw [waiting_setStage (by simp)]
    show Holds cell (resumed s.waiting i) a' none
    rw [resumed_eq_self hwaiting]
    exact hholds
  cases progress with
  | pending =>
    refine ⟨.pending, s, a, some i, ?_, h, hkept s, trivial⟩
    simp only [initializer, hf]
  | value v =>
    obtain ⟨c', a', hres, hholds, hwritten⟩ := setValue_spec h.cell v
    refine ⟨.value v, ({ s with cell := c' } : System P T W).setStage i .returned, a', none, ?_,
      hreturned c' a' hholds, hkept _, hwritten⟩
    simp only [initializer, hf, hres, ok_bind]
    rfl
  | error e =>
    obtain ⟨c', hres, hholds⟩ := dropPermit_spec h.cell
    refine ⟨.failed e, ({ s with cell := c' } : System P T W).setStage i .returned, a.release 1,
      none, ?_, hreturned c' _ hholds, hkept _, trivial⟩
    simp only [initializer, hf, hres, ok_bind]
    rfl
  | panic =>
    obtain ⟨c', hres, hholds⟩ := dropPermit_spec h.cell
    refine ⟨.unwound, ({ s with cell := c' } : System P T W).setStage i .returned, a.release 1,
      none, ?_, hreturned c' _ hholds, hkept _, trivial⟩
    simp only [initializer, hf, hres, ok_bind]
    rfl

omit [Waker W] in
theorem waiting_erase (s : System P T W) (i : Addr) :
    ({ s with futures := s.futures.erase i } : System P T W).waiting = resumed s.waiting i := by
  funext j
  rw [waiting, stage_erase, resumed]
  by_cases hj : j = i <;> simp [hj, waiting]

omit [Waker W] in
/-- What is left of the holder when a future is gone. -/
theorem stage_erase_iff (hs : ∀ i n, s.stage i = some (.initializing n) ↔ holder = some i ∧ n = 1)
    (j : Addr) (n : UInt32) :
    ({ s with futures := s.futures.erase i } : System P T W).stage j = some (.initializing n) ↔
      (if holder = some i then none else holder) = some j ∧ n = 1 := by
  rw [stage_erase]
  by_cases hj : j = i
  · subst hj
    by_cases hh : holder = some j
    · simp [hh]
    · simp [hh]
  · rw [if_neg hj, hs]
    split_ifs with hh
    · simp [hh, Ne.symm hj]
    · rfl

/-- **Dropping a future**, wherever it stands. -/
theorem cancel_spec (h : Inv s a holder) (hi : s.stage i = some stage) :
    ∃ t a' holder', s.cancel i = .ok t ∧ Inv t a' holder' ∧ s.cell.written <+: t.cell.written := by
  obtain ⟨⟨kind, st⟩, hf, rfl⟩ := Option.map_eq_some_iff.mp hi
  have herased := stage_erase_iff (i := i) h.stage
  have hwaiting := waiting_erase s i
  cases st with
  | waiting =>
    obtain ⟨y, hres, hholds⟩ := h.cell.cancel (i := i) (waiting_eq hi)
    rw [if_neg (holder_ne h.stage hi (by simp))] at herased
    refine ⟨{ cell := { s.cell with semaphore := y }, futures := s.futures.erase i }, a.cancel i,
      holder, ?_, ⟨?_, herased⟩, List.prefix_rfl⟩
    · simp only [cancel, hf, hres]
      rfl
    · rw [← hwaiting] at hholds
      exact hholds
  | initializing n =>
    obtain ⟨rfl, rfl⟩ := (h.stage i n).mp hi
    obtain ⟨c', hres, hholds⟩ := dropPermit_spec h.cell
    rw [if_pos rfl] at herased
    refine ⟨{ cell := c', futures := s.futures.erase i }, a.release 1, none, ?_, ⟨?_, herased⟩,
      h.cell.written_of_holder ▸ List.nil_prefix⟩
    · simp only [cancel, hf, hres]
      rfl
    · rw [← resumed_eq_self (waiting_eq hi), ← hwaiting] at hholds
      exact hholds
  | unresumed =>
    rw [if_neg (holder_ne h.stage hi (by simp))] at herased
    refine ⟨{ s with futures := s.futures.erase i }, a, holder, ?_, ⟨?_, herased⟩,
      List.prefix_rfl⟩
    · simp only [cancel, hf]
    · rw [hwaiting, resumed_eq_self (waiting_eq hi)]
      exact h.cell
  | returned =>
    rw [if_neg (holder_ne h.stage hi (by simp))] at herased
    refine ⟨{ s with futures := s.futures.erase i }, a, holder, ?_, ⟨?_, herased⟩,
      List.prefix_rfl⟩
    · simp only [cancel, hf]
    · rw [hwaiting, resumed_eq_self (waiting_eq hi)]
      exact h.cell

/-- **Creating a future** does not touch the cell. -/
theorem create_spec (h : Inv s a holder) {i : Addr} (hi : s.futures.get? i = none) (kind : Kind) :
    Inv { s with futures := s.futures.insert i { kind, stage := .unresumed } } a holder := by
  have hnone : s.stage i = none := by
    rw [System.stage, hi]
    rfl
  obtain ⟨u, hu⟩ : ∃ u : System P T W,
      u = { s with futures := s.futures.insert i { kind, stage := .unresumed } } := ⟨_, rfl⟩
  have hstage : ∀ j, u.stage j = if j = i then some .unresumed else s.stage j := by
    intro j
    rw [hu, System.stage, Store.get?_insert]
    split_ifs <;> rfl
  have hwaiting : u.waiting = s.waiting := by
    funext j
    rw [waiting, hstage]
    by_cases hj : j = i
    · subst hj
      simp [waiting, hnone]
    · simp [waiting, hj]
  rw [← hu]
  constructor
  · rw [hwaiting, hu]
    exact h.cell
  · intro j n
    rw [hstage]
    by_cases hj : j = i
    · subst hj
      have hne := (h.stage j n).not.mp (by simp [hnone])
      simpa using hne
    · rw [if_neg hj]
      exact h.stage j n

/-- **`take`** leaves a new cell. -/
theorem take_spec (h : Inv s a holder) (hs : s.futures.dom = ∅) :
    s.exec (.take : Action T E W) =
      .ok (.taken s.cell.written.head?, System.of (OnceCell.new P T W)) := by
  have hempty : s.futures = Store.empty := by
    apply Store.ext_get?
    intro i
    rw [Store.get?_empty, ← Store.not_mem_dom_iff, hs]
    exact Finset.notMem_empty i
  simp only [exec, OnceCell.take, h.cell.intoInner_spec, ok_bind]
  rw [hempty]
  rfl

/-- **Every step that is allowed returns**, keeps the invariant and tells the truth. -/
theorem exec_spec (h : Inv s a holder) {e : Action T E W} (he : s.Allowed e) :
    ∃ o t a' holder', s.exec e = .ok (o, t) ∧ Inv t a' holder' ∧
      (e ≠ .take → s.cell.written <+: t.cell.written) ∧ s.Truthful t o := by
  cases e with
  | create i kind => exact ⟨.unit, _, a, holder, rfl, create_spec h he kind,
      fun _ => List.prefix_rfl, trivial⟩
  | poll i cx =>
    obtain ⟨stage, hi, hne⟩ := (Option.any_eq_true _ _).mp he
    obtain ⟨o, t, a', holder', hres, h', hkept, htrue⟩ :=
      poll_spec (E := E) h hi (by simpa using hne) cx
    exact ⟨o, t, a', holder', hres, h', fun _ => hkept, htrue⟩
  | initializer i progress =>
    obtain ⟨⟨kind, st⟩, hf, hst⟩ := (Option.any_eq_true _ _).mp he
    have hi : s.stage i = some st := by rw [System.stage, hf]; rfl
    cases st with
    | initializing n =>
      obtain ⟨o, t, a', holder', hres, h', hkept, htrue⟩ := initializer_spec h hi progress
      exact ⟨o, t, a', holder', hres, h', fun _ => hkept, htrue⟩
    | unresumed | waiting | returned => cases hst
  | cancel i =>
    obtain ⟨f, hf⟩ := Option.isSome_iff_exists.mp he
    have hi : s.stage i = some f.stage := by rw [System.stage, hf]; rfl
    obtain ⟨t, a', holder', hres, h', hkept⟩ := cancel_spec h hi
    refine ⟨.unit, t, a', holder', ?_, h', fun _ => hkept, trivial⟩
    rw [exec, hres]
    rfl
  | set v =>
    obtain ⟨r, c', a', hres, hholds, hkept⟩ := set_spec h.cell v
    refine ⟨.set r, { s with cell := c' }, a', holder, ?_, ⟨hholds, h.stage⟩, fun _ => hkept,
      trivial⟩
    rw [exec, hres]
    rfl
  | get =>
    refine ⟨.got s.cell.written.head?, s, a, holder, ?_, h, fun _ => List.prefix_rfl, rfl⟩
    rw [exec, h.cell.get_spec]
    rfl
  | take => exact ⟨_, _, _, none, take_spec h he, of_inv new_holds,
      fun hne => absurd rfl hne, rfl⟩

/-- What a step does. -/
theorem Inv.step (h : Inv s a holder) {e : Action T E W} {o : Answer T E} {t : System P T W}
    (hstep : Step s (e, o) t) :
    (e ≠ .take → s.cell.written <+: t.cell.written) ∧ s.Truthful t o ∧
      ∃ a' holder', Inv t a' holder' := by
  obtain ⟨he, hres⟩ := hstep
  obtain ⟨o', t', a', holder', hres', ht, hkept, htrue⟩ := exec_spec h he
  rw [hres] at hres'
  obtain ⟨rfl, rfl⟩ := Prod.mk.inj (Except.ok.inj hres')
  exact ⟨hkept, htrue, a', holder', ht⟩

/-- Every run keeps the invariant. -/
theorem run_inv {t : System P T W} {es : List (Action T E W × Answer T E)}
    (hrun : Run Step s es t) (h : Inv s a holder) : ∃ a' holder', Inv t a' holder' := by
  apply hrun.invariant (I := fun u : System P T W => ∃ a' holder', Inv u a' holder')
  · rintro u ⟨e, o⟩ v ⟨b, holder', hb⟩ hstep
    exact (hb.step hstep).2.2
  · exact ⟨a, holder, h⟩

/-- **Initialised at most once, and everyone agrees**: what holds of a state of the system and of
every step from it. -/
structure Agreement (E : Type) (s : System P T W) : Prop where
  /-- The slot has been written at most once. -/
  once : s.cell.written.length ≤ 1
  /-- Only `take` removes the value. -/
  kept : ∀ (e : Action T E W) o t, Step s (e, o) t → e ≠ .take → s.cell.written <+: t.cell.written
  /-- `value_set` says whether it has. -/
  valueSet : s.cell.valueSet = true ↔ s.cell.written ≠ []
  /-- At most one initialiser is in progress. -/
  single : ∀ i j n m, s.stage i = some (.initializing n) → s.stage j = some (.initializing m) →
    i = j
  /-- None is in progress once the value is set. -/
  unset : ∀ i n, s.stage i = some (.initializing n) → s.cell.valueSet = false
  /-- No step reads the slot before it is written, or fails an assertion. -/
  returns : ∀ e : Action T E W, s.Allowed e → ∃ o t, s.exec e = .ok (o, t)
  drops : s.cell.drop = .ok ()
  /-- A reference is to the value that was written, and an initialiser only starts when there is
  no value. -/
  truthful : ∀ (e : Action T E W) o t, Step s (e, o) t → s.Truthful t o
  /-- The semaphore is closed only if the value is set. -/
  closed : s.cell.semaphore.inner.isClosed = true → s.cell.valueSet = true
  /-- A permit is granted only while it is not. -/
  acquired : ∀ i first cx y, s.waiting i = !first →
    s.cell.semaphore.awaitOne i first cx = .ok (.ready (.ok ()), y) → s.cell.valueSet = false
  tryAcquired : ∀ y, s.cell.semaphore.tryAcquire 1 = .ok (.ok (), y) → s.cell.valueSet = false
  /-- `take` leaves a new cell. -/
  taken : ∀ (o : Answer T E) t, Step s (.take, o) t → t = System.of (OnceCell.new P T W)

theorem Inv.agrees (h : Inv s a holder) : Agreement E s where
  once := h.cell.written_eq.1
  kept e o t hstep hne := (h.step hstep).1 hne
  valueSet := h.cell.written_eq.2
  single i j n m hi hj := by
    have hh := ((h.stage i n).mp hi).1
    rw [((h.stage j m).mp hj).1] at hh
    exact (Option.some.inj hh).symm
  unset i n hi := by
    obtain ⟨rfl, -⟩ := (h.stage i n).mp hi
    exact h.cell.valueSet_of_holder
  returns e he := by
    obtain ⟨o, t, a', holder', hres, -⟩ := exec_spec h he
    exact ⟨o, t, hres⟩
  drops := h.cell.drop_spec
  truthful e o t hstep := (h.step hstep).2.1
  closed := by
    obtain ⟨b, n, -, hslots⟩ := h.cell.slots
    rw [hslots.isClosed, h.cell.closed_eq]
    exact id
  acquired i first cx y hi hres := by
    obtain ⟨y', a', hres', hr⟩ := awaitOne_spec h.cell hi cx
    rw [hres] at hres'
    obtain ⟨hp, -⟩ := Prod.mk.inj (Except.ok.inj hres')
    rw [← hp] at hr
    exact hr.1
  tryAcquired y hres := by
    obtain ⟨b, n, hb, hslots⟩ := h.cell.slots
    obtain ⟨y', hres', -⟩ := hslots.tryAcquire hb
    rw [hres] at hres'
    obtain ⟨hp, -⟩ := Prod.mk.inj (Except.ok.inj hres')
    rw [← h.cell.closed_eq, ← Bool.not_eq_true]
    intro hc
    rw [Fair.tryAcquire, if_pos hc] at hp
    cases hp
  taken o t hstep := by
    obtain ⟨he, hres⟩ := hstep
    rw [take_spec h he] at hres
    exact (Prod.mk.inj (Except.ok.inj hres)).2.symm

end System

/-- **`OnceCell` is initialised at most once, and everyone agrees on the value**, in every run of
the calls on a cell that `new`, `new_with` or `from` has built. -/
theorem agreement (o : Option T) :
    ∃ c, newWith P W o = .ok c ∧ ∀ (es : List (Action T E W × Answer T E)) s,
      Run System.Step (System.of c) es s → System.Agreement E s := by
  cases o with
  | none =>
    refine ⟨new P T W, rfl, fun es s hrun => ?_⟩
    obtain ⟨a, holder, h⟩ := System.run_inv hrun (System.of_inv new_holds)
    exact h.agrees
  | some v =>
    obtain ⟨c, a, hres, hc⟩ := fromValue_spec (P := P) (W := W) v
    refine ⟨c, hres, fun es s hrun => ?_⟩
    obtain ⟨b, holder, h⟩ := System.run_inv hrun (System.of_inv hc)
    exact h.agrees

/-- A run with a cancelled and a failing initialiser: the third call gets the value that `set`
wrote in the meantime. -/
theorem agreement_run : ∃ (es : List (Action ℕ ℕ ℕ × Answer ℕ ℕ)) (s : System .w64 ℕ ℕ),
    Run System.Step (System.of (new .w64 ℕ ℕ)) es s ∧ s.cell.written = [7] ∧
      (es.map Prod.snd).getLast? = some (.value 7) ∧ System.Agreement ℕ s := by
  have hcheck : (replay (attempt System.Allowed System.exec) (System.of (new .w64 ℕ ℕ))
      [.create 1 .init, .poll 1 0, .create 2 .tryInit, .poll 2 0, .create 3 .init, .set 5,
        .cancel 1, .poll 2 0, .poll 3 0, .initializer 2 (.error 4), .set 6, .cancel 3, .set 7,
        .create 4 .init, .poll 4 0]).map
      (fun r => (r.2.cell.written, (r.1.map Prod.snd).getLast?)) =
        some ([7], some (.value 7)) := by
    decide +kernel
  obtain ⟨⟨es, s⟩, hres, hs⟩ := Option.map_eq_some_iff.mp hcheck
  obtain ⟨hwritten, hlast⟩ := Prod.mk.inj hs
  have hrun : Run System.Step _ es s := run_of_replay (fun _ _ _ _ => of_attempt) hres
  obtain ⟨c, hc, hall⟩ := agreement (P := .w64) (E := ℕ) (W := ℕ) (none : Option ℕ)
  obtain rfl := Except.ok.inj hc
  exact ⟨es, s, hrun, hwritten, hlast, hall es s hrun⟩

end LocalSync.OnceCell
