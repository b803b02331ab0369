/-
  Who is left behind when `add_permits` panics on the limit.

  The assertion stands behind the hand-out: by then every waiter has been served
  and unlinked, and the full batches of 32 wakers have been called.  The wakers
  of the last batch are dropped by the unwinding.  So a waiter is remembered
  exactly when it is not in that batch (`LimitPanic.remembered_iff`), and
  nobody is stranded exactly when the number of waiters is a multiple of the
  size of a batch (`System.nobody_stranded_iff`).
-/
import LocalSync.Equiv.HandOut

namespace LocalSync.Semaphore

open Lib LinkedList

variable {P : PointerWidth} {W : Type}

namespace Inner

/-- The state that a panic leaves behind. -/
def unwound {α : Type} : Outcome P W α → Option (Unwind (Inner P W))
  | .ok _ => none
  | .error u => some u

theorem unwound_eq_some {α : Type} {x : Outcome P W α} {u : Unwind (Inner P W)} :
    unwound x = some u ↔ x = .error u := by
  cases x <;> simp [unwound]

/-- The future at `i`, which waits in `s`, is not stranded in `t`: it still waits for as much, with
the same waker in its node, or this waker has been woken. -/
def Remembered (s t : Inner P W) (i : Addr) : Prop :=
  (∃ q, t.WaitList q ∧ i ∈ q ∧ t.need i = s.need i ∧ t.waker i = s.waker i ∧
    (t.waker i).isSome = true) ∨
  ∃ w, s.waker i = some w ∧ wakesOf i t.woken = wakesOf i s.woken ++ [w]

end Inner

section Panic

variable {s : Inner P W} {a : Fair W} {u : Unwind (Inner P W)} {batch : List (Addr × W)} {n : ℕ}
  {i : Addr}

/-- Before the panic everybody is served. -/
theorem Fair.Sound.handsOut_all (ha : a.Sound) (hlt : a.available < (a.release n).available) :
    Fair.HandsOut a (a.release n) n a.waiting [] := by
  obtain ⟨q, v, hq, hout⟩ := Fair.handOut_handsOut rfl ha.nodup n
  have hv : v = [] := by
    by_contra hne
    have hav : (a.release n).available = a.available := hout.available_of_ne_nil hne
    omega
  subst hv
  rw [List.append_nil] at hq
  exact hq ▸ hout

/-- **Who is remembered**: the waiters whose wakers were not in the last batch. -/
theorem LimitPanic.remembered_iff (hpanic : LimitPanic a n u batch) (h : Refines s a [])
    (ha : a.Sound) (hlt : a.available < (a.release n).available) (hi : i ∈ a.waiting) :
    s.Remembered u.state i ↔ i ∉ batch.map Prod.fst := by
  have hout := ha.handsOut_all hlt
  obtain ⟨w, hw⟩ := Option.isSome_iff_exists.mp (ha.awake i hi)
  have hwaker : s.waker i = some w := (h.waker_eq i).symm.trans hw
  -- what has been woken, and what the batch would have woken
  have hlog : wakesOf i u.state.woken ++ wakesOf i batch.reverse = wakesOf i s.woken ++ [w] := by
    rw [← wakesOf_append, h.wakesOf_eq]
    calc wakesOf i (u.state.woken ++ batch.reverse) = (a.release n).woken i := hpanic.refines.woken i
      _ = a.woken i ++ (a.waker i).toList := hout.woken i hi
      _ = a.woken i ++ [w] := by rw [hw]; rfl
  constructor
  · rintro (⟨q, hq, hiq, -⟩ | ⟨w', hw', hwoken⟩) hmem
    · -- the list is empty
      have hnil : u.state.WaitList [] := by
        have hrep := hpanic.refines.queue
        rwa [show ({ a.release n with available := a.available } : Fair W).waiting = [] from
          hout.waiting] at hrep
      rw [hq.unique hnil] at hiq
      cases hiq
    · obtain rfl := Option.some.inj (hwaker.symm.trans hw')
      rw [hwoken, List.append_right_eq_self] at hlog
      obtain ⟨e, he, rfl⟩ := List.mem_map.mp hmem
      have hnone := List.filterMap_eq_nil_iff.mp hlog e (List.mem_reverse.mpr he)
      rw [if_pos rfl] at hnone
      cases hnone
  · intro hmem
    have hnil : wakesOf i batch.reverse = [] := wakesOf_eq_nil fun e he hei =>
      hmem (hei ▸ List.mem_map_of_mem (List.mem_reverse.mp he))
    rw [hnil, List.append_nil] at hlog
    exact Or.inr ⟨w, hwaker, hlog⟩

end Panic

namespace System

variable [Waker W] {p : ℕ} {es : List (Action W × Output)} {s : System P W} {n : ℕ}
  {u : Unwind (Inner P W)} {q : List Addr}

/-- The wait list when both ends are the same future. -/
theorem waitList_singleton {i : Addr} (hrun : Run Step (System.new P W p) es s)
    (hqueue : s.sem.inner.waiters.queue = ⟨some i, some i⟩) : s.sem.inner.WaitList [i] := by
  obtain ⟨a, h⟩ := run_follows hrun
  have hrep := h.sem.refines.queue
  have hhead := hrep.head_eq
  have htail := hrep.tail_eq
  have hnd := hrep.nodup
  rw [hqueue] at hhead htail
  obtain ⟨v, hv⟩ := List.head?_eq_some_iff.mp hhead.symm
  rw [hv] at hrep htail hnd
  cases v with
  | nil => exact hrep
  | cons j v =>
    rw [List.getLast?_cons_cons] at htail
    exact absurd (List.mem_of_getLast? htail.symm) (List.nodup_cons.mp hnd).1

/-- **Nobody is stranded** by an `add_permits` that panics exactly when the number of waiters is a
multiple of the size of a batch. -/
theorem nobody_stranded_iff (hrun : Run Step (System.new P W p) es s)
    (hu : s.sem.inner.addPermits n = .error u) (hq : s.sem.inner.WaitList q) :
    u.fault = .panic s!"cannot add more than MAX_PERMITS permits ({Inner.maxPermits P})" ∧
      ((∀ i ∈ q, s.sem.inner.Remembered u.state i) ↔ numWakers ∣ q.length) := by
  obtain ⟨a, h⟩ := run_follows hrun
  have hrefines := h.sem.refines
  obtain rfl : q = a.waiting := hq.unique hrefines.queue
  rcases Semaphore.addPermits_cases hrefines h.sem.sound.servable h.sem.counter n with
    ⟨-, t, ht, -⟩ | ⟨hlt, u', batch, hu', hpanic⟩
  · rw [hu] at ht
    cases ht
  obtain rfl := Except.error.inj (hu.symm.trans hu')
  have hiff : ∀ i ∈ a.waiting, (s.sem.inner.Remembered u.state i ↔ i ∉ batch.map Prod.fst) :=
    fun i hi => hpanic.remembered_iff hrefines h.sem.sound (by omega) hi
  refine ⟨hpanic.fault, ?_⟩
  rw [Nat.dvd_iff_mod_eq_zero, ← hpanic.length, List.length_eq_zero_iff]
  constructor
  · intro hall
    refine List.eq_nil_iff_forall_not_mem.mpr fun e he => ?_
    have hmem := List.mem_map_of_mem (f := Prod.fst) he
    have hi := hpanic.suffix.subset hmem
    exact (hiff _ hi).mp (hall _ hi) hmem
  · rintro rfl i hi
    exact (hiff i hi).mpr List.not_mem_nil

/-- One request waits for one permit, and one more than the maximum comes in on top of it. -/
theorem nobody_stranded_iff_one : ∃ (es : List (Action ℕ × Output)) (s : System .w64 ℕ)
    (u : Unwind (Inner .w64 ℕ)), Run Step (System.new .w64 ℕ 0) es s ∧
      s.sem.inner.addPermits 2305843009213693953 = .error u ∧ s.sem.inner.WaitList [7] ∧
      ((∀ i ∈ [7], s.sem.inner.Remembered u.state i) ↔ numWakers ∣ 1) := by
  have hcheck : (replay System.call (System.new .w64 ℕ 0) [.acquireMany 7 1, .poll 7 1]).map
      (fun r => (r.2.sem.inner.waiters.queue,
        (Inner.unwound (r.2.sem.inner.addPermits 2305843009213693953)).isSome)) =
      some (⟨some 7, some 7⟩, true) := by decide +kernel
  obtain ⟨⟨es, s⟩, hres, hs⟩ := Option.map_eq_some_iff.mp hcheck
  obtain ⟨hqueue, hsome⟩ := Prod.mk.inj hs
  obtain ⟨u, hu⟩ := Option.isSome_iff_exists.mp hsome
  have hrun := run_of_replay step_of_call hres
  have hq := waitList_singleton hrun hqueue
  exact ⟨es, s, u, hrun, Inner.unwound_eq_some.mp hu, hq,
    (nobody_stranded_iff hrun (Inner.unwound_eq_some.mp hu) hq).2⟩

/-- A request that waits alone is stranded: it is not in the list any more, and nobody has woken
it. -/
theorem stranded_one : ∃ (es : List (Action ℕ × Output)) (s : System .w64 ℕ)
    (u : Unwind (Inner .w64 ℕ)), Run Step (System.new .w64 ℕ 0) es s ∧
      s.sem.inner.addPermits 2305843009213693953 = .error u ∧
      u.fault = .panic "cannot add more than MAX_PERMITS permits (2305843009213693951)" ∧
      s.sem.inner.WaitList [7] ∧ ¬ ∀ i ∈ [7], s.sem.inner.Remembered u.state i := by
  have hcheck : (replay System.call (System.new .w64 ℕ 0) [.acquireMany 7 1, .poll 7 1]).map
      (fun r => (r.2.sem.inner.waiters.queue, r.2.sem.inner.woken)) =
      some (⟨some 7, some 7⟩, []) := by decide +kernel
  have hpanics : (replay System.call (System.new .w64 ℕ 0) [.acquireMany 7 1, .poll 7 1]).bind
      (fun r => (Inner.unwound (r.2.sem.inner.addPermits 2305843009213693953)).map fun u =>
        (u.fault, u.state.waiters.queue, u.state.woken)) =
      some (.panic "cannot add more than MAX_PERMITS permits (2305843009213693951)",
        LinkedList.new, []) := by decide +kernel
  obtain ⟨⟨es, s⟩, hres, hs⟩ := Option.map_eq_some_iff.mp hcheck
  obtain ⟨hqueue, hwoken⟩ := Prod.mk.inj hs
  rw [hres, Option.bind_some] at hpanics
  obtain ⟨u, hu, hleft⟩ := Option.map_eq_some_iff.mp hpanics
  obtain ⟨hfault, hleft⟩ := Prod.mk.inj hleft
  obtain ⟨hqueue', hwoken'⟩ := Prod.mk.inj hleft
  have hrun := run_of_replay step_of_call hres
  refine ⟨es, s, u, hrun, Inner.unwound_eq_some.mp hu, hfault, waitList_singleton hrun hqueue,
    fun hall => ?_⟩
  rcases hall 7 (List.mem_singleton_self 7) with ⟨q, hq, hmem, -⟩ | ⟨w, -, hlog⟩
  · have hhead := hq.head_eq
    rw [hqueue'] at hhead
    rw [← List.mem_reverse, List.head?_eq_none_iff.mp hhead.symm] at hmem
    cases hmem
  · rw [hwoken', show s.sem.inner.woken = [] from hwoken] at hlog
    cases hlog

end System

end LocalSync.Semaphore
