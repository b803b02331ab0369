/-
  The semaphore as a turnstile shows it.

  `Shows p a g`: the turnstile `g` shows the abstract semaphore `a`, all of whose
  requests are those of the suspended callers `p`, for one permit each.  A permit
  that comes in lets one caller in (`Shows.letIn`), and asking for one does at the
  turnstile what it does at the semaphore (`ask_spec`).
-/
import LocalSync.Equiv.Portions
import LocalSync.Equiv.Slots
import LocalSync.Semaphore.Turnstile

namespace LocalSync.Semaphore

open Lib

variable {P : PointerWidth} {W : Type}

namespace Turnstile

/-- **What the turnstile shows** of the semaphore, whose requests are those of the callers `p`. -/
structure Shows (p : Addr → Bool) (a : Fair W) (g : Turnstile) : Prop where
  free : a.available = g.free
  line : a.waiting = g.line
  isShut : a.closed = g.isShut
  granted : ∀ i, i ∈ g.granted ↔ p i = true ∧ a.need i = 0

variable {p : Addr → Bool} {a : Fair W} {g : Turnstile} {i : Addr} {k n b : ℕ}

theorem new_shows (b : ℕ) : Shows (fun _ => false) (Fair.new W b) (Turnstile.new b) where
  free := rfl
  line := rfl
  isShut := rfl
  granted i := by simp [Turnstile.new]

/-- One permit comes in. -/
theorem Shows.letIn (h : Shows p a g) (ha : a.Sound)
    (hone : ∀ i ∈ a.waiting, p i = true ∧ a.need i = 1) : Shows p (a.release 1) g.letIn := by
  rw [Turnstile.letIn]
  cases hline : g.line with
  | nil =>
    have hnil : a.waiting = [] := h.line.trans hline
    rw [Fair.release_of_nil hnil]
    exact ⟨congrArg (· + 1) h.free, hnil, h.isShut, h.granted⟩
  | cons i line =>
    have hq : a.waiting = i :: line := h.line.trans hline
    obtain ⟨hp, hneed⟩ := hone i (hq ▸ List.mem_cons_self ..)
    have hserve : a.release 1 = a.wakeUp i 0 := by
      have hzero := (ha.servable.wakeUp hq).handOut_zero
      rw [show (a.wakeUp i 0).waiting = line from congrArg List.tail hq] at hzero
      rw [Fair.release, hq, Fair.handOut, if_pos (le_of_eq hneed), hneed]
      exact hzero
    rw [hserve]
    refine ⟨h.free, congrArg List.tail hq, h.isShut, fun j => ?_⟩
    rw [Finset.mem_insert, h.granted]
    by_cases hj : j = i
    · subst hj
      have hself : (a.wakeUp j 0).need j = 0 := by
        rw [Fair.need, Fair.wakeUp, Store.get?_modify_self]
        cases a.requests.get? j <;> rfl
      simp [hp, hself]
    · have hother : (a.wakeUp i 0).need j = a.need j := by
        rw [Fair.need, Fair.need, Fair.wakeUp, Store.get?_modify_of_ne _ _ hj]
      simp [hj, hother]

/-- The request at `i` is forgotten. -/
theorem Shows.remove {c : Fair W} {g' : Turnstile} (h : Shows p a g) (hfree : c.available = g'.free)
    (hline : c.waiting.erase i = g'.line) (hshut : c.closed = g'.isShut)
    (hgranted : g'.granted = g.granted.erase i) (hneed : ∀ j, j ≠ i → c.need j = a.need j) :
    Shows (resumed p i) (c.remove i) g' where
  free := hfree
  line := hline
  isShut := hshut
  granted j := by
    rw [hgranted, Finset.mem_erase, h.granted, resumed]
    by_cases hj : j = i
    · simp [hj]
    · have hget : (c.remove i).need j = a.need j := by
        rw [← hneed j hj, Fair.need, Fair.need, Fair.remove, Store.get?_erase_of_ne _ hj]
      simp [hj, hget]

variable [Waker W] {x : Tracked P W}

/-- Who waits is a suspended caller that needs one permit. -/
theorem one_of_waiting (h : Slots b p a x n) (hi : i ∈ a.waiting) :
    p i = true ∧ a.need i = 1 := by
  obtain ⟨r, hr, -, hpos⟩ := h.models.sound.exists_of_mem hi
  obtain ⟨hp, hsize⟩ := h.suspended_of_get? hr
  have hle := h.models.sound.need_le i r hr
  have h1 : (1 : UInt32).toNat = 1 := rfl
  rw [hsize] at hle
  rw [Fair.need_of_get? hr]
  exact ⟨hp, by omega⟩

/-- Permits come in. -/
theorem Shows.give (h : Shows p a g) (hb : b ≤ Inner.maxPermits P) (hs : Slots b p a x (n + k)) :
    Shows p (a.release k) (Turnstile.letIn^[k] g) := by
  induction k generalizing n with
  | zero =>
    rw [Fair.release_zero hs.models.sound]
    exact h
  | succ k ih =>
    -- one permit after the other
    have hs' : Slots b p a x (n + 1 + k) := by rwa [Nat.add_assoc, Nat.add_comm 1 k]
    obtain ⟨y, -, hy⟩ := hs'.release hb
    have hnext := (ih hs').letIn hy.models.sound fun i hi => one_of_waiting hy hi
    rw [Fair.release_release] at hnext
    rw [Function.iterate_succ_apply']
    exact hnext

omit [Waker W] in
theorem Shows.shut (h : Shows p a g) (ha : a.Sound) : Shows p a.close g.shut := by
  obtain ⟨hav, hclosed, hwaiting, -, hget⟩ :=
    Fair.wakeAll_spec (a := { a with closed := true }) rfl ha.nodup
  refine ⟨hav.trans h.free, hwaiting, hclosed, fun i => ?_⟩
  have hneed : a.close.need i = a.need i := by
    rw [Fair.need, Fair.close, hget i, Fair.need]
    split_ifs
    · cases a.requests.get? i <;> rfl
    · rfl
  rw [hneed]
  exact h.granted i

/-- Who is not suspended does not wait. -/
theorem not_mem_waiting (h : Slots b p a x n) (hi : p i = false) : i ∉ a.waiting := fun hmem => by
  rw [(one_of_waiting h hmem).1] at hi
  cases hi

omit [Waker W] in
theorem Shows.not_mem_granted (h : Shows p a g) (hi : p i = false) : i ∉ g.granted := fun hmem => by
  rw [((h.granted i).mp hmem).1] at hi
  cases hi

/-- A suspended caller is dropped. -/
theorem Shows.leave (h : Shows p a g) (hs : Slots b p a x n) (hi : p i = true) :
    Shows (resumed p i) (a.cancel i) (g.leave i) := by
  have ha := hs.models.sound
  obtain ⟨r, hr, -⟩ := hs.exists_request hi
  have hheld := hs.held_eq hi hr
  have hneed := Fair.need_of_get? hr
  rw [Turnstile.leave]
  by_cases hserved : a.need i = 0
  · have hwaiting : a.waiting.erase i = a.waiting :=
      List.erase_of_not_mem (hs.not_mem_waiting hi hserved)
    rw [if_pos ((h.granted i).mpr ⟨hi, hserved⟩), Fair.cancel, hr, Option.elim_some, hheld,
      if_pos (hneed ▸ hserved)]
    have hremove : Shows (resumed p i) (a.remove i) { g with granted := g.granted.erase i } :=
      h.remove h.free (hwaiting.trans h.line) h.isShut rfl fun _ _ => rfl
    refine hremove.letIn (ha.remove i) fun j hj => ?_
    obtain ⟨hne, hmem⟩ := (ha.nodup.mem_erase_iff).mp hj
    obtain ⟨hp, hone⟩ := one_of_waiting hs hmem
    refine ⟨by rw [resumed_of_ne hne, hp], ?_⟩
    rw [← hone, Fair.need, Fair.need, Fair.remove, Store.get?_erase_of_ne _ hne]
  · have hnot : i ∉ g.granted := fun hmem => hserved ((h.granted i).mp hmem).2
    rw [if_neg hnot, ha.cancel_of_held hr (hheld.trans (if_neg (hneed ▸ hserved)))]
    exact h.remove h.free (congrArg (List.erase · i) h.line) h.isShut
      (Finset.erase_eq_of_notMem hnot).symm fun _ _ => rfl

omit [Waker W] in
theorem Shows.not_shut (h : Shows p a g) (hopen : a.closed = false) : ¬ g.isShut = true := by
  rw [← h.isShut, hopen]
  exact Bool.false_ne_true

omit [Waker W] in
/-- Trying to take a permit, without waiting for it. -/
theorem Shows.tryAcquire (h : Shows p a g) (hopen : g.isShut = false) :
    if 0 < g.free then (a.tryAcquire 1).1 = .ok () ∧
      Shows p (a.tryAcquire 1).2 { g with free := g.free - 1 }
    else (a.tryAcquire 1).1 = .error .noPermits := by
  have h1 : (1 : UInt32).toNat = 1 := rfl
  have hopen' : ¬ a.closed = true := by
    rw [h.isShut, hopen]
    exact Bool.false_ne_true
  rw [Fair.tryAcquire, if_neg hopen', h.free, h1]
  split_ifs with hfree hlt
  · omega
  · exact ⟨rfl, congrArg (· - 1) h.free, h.line, h.isShut, h.granted⟩
  · rfl
  · omega

/-- Asking for the first time. -/
theorem Shows.ask_first (h : Shows p a g) (hs : Slots b p a x n) (hp : p i = false) (cx : W) :
    (a.awaitOne i true cx).1 = (g.ask i true).1 ∧
      Shows (match (g.ask i true).1 with
        | .pending => suspend p i
        | .ready _ => resumed p i) (a.awaitOne i true cx).2 (g.ask i true).2 := by
  have hnot := h.not_mem_granted hp
  have herase : g.granted = g.granted.erase i := (Finset.erase_eq_of_notMem hnot).symm
  have hwaiting : a.waiting.erase i = a.waiting := List.erase_of_not_mem (not_mem_waiting hs hp)
  have hask := hs.first hp
  have hget : (a.acquire i 1).requests.get? i = some (Request.new 1) := Store.get?_insert_self _ _ _
  have hother : ∀ j, j ≠ i → (a.acquire i 1).need j = a.need j := fun j hj => by
    rw [Fair.need, Fair.need, Fair.acquire, Store.get?_insert_of_ne _ _ hj]
  have hsound : ((a.acquire i 1).poll i cx).2.Sound :=
    hask.models.sound.poll hget (hask.models.need_eq hget hask.unfinished)
  have hpolled := Fair.polled cx hget
  rw [Fair.awaitOne, if_pos rfl]
  generalize (a.acquire i 1).poll i cx = pa at hpolled hsound
  cases hpolled with
  | closed hc =>
    have hcancel : (a.acquire i 1).cancel i = (a.acquire i 1).remove i :=
      hsound.cancel_of_held hget rfl
    rw [Turnstile.ask, if_pos (h.isShut.symm.trans hc), Turnstile.leave, if_neg hnot]
    refine ⟨rfl, ?_⟩
    simp only [hcancel]
    exact h.remove h.free (congrArg (List.erase · i) h.line) h.isShut herase hother
  | collected _ hqueued _ => cases hqueued
  | waiting _ hqueued _ => cases hqueued
  | taken hopen _ hle =>
    have hcancel : ((a.acquire i 1).take (Request.new 1 : Request W).size.toNat).cancel i =
        ((a.acquire i 1).take 1).remove i :=
      hsound.cancel_of_held (r := Request.new 1) hget rfl
    have hfree : 0 < g.free := h.free ▸ hle
    rw [Turnstile.ask, if_neg (h.not_shut hopen), if_pos rfl, if_pos hfree]
    refine ⟨rfl, ?_⟩
    simp only [hcancel]
    exact h.remove (congrArg (· - 1) h.free) (hwaiting.trans h.line) h.isShut herase hother
  | enqueued hopen _ hlt =>
    have hzero : a.available = 0 := Nat.lt_one_iff.mp hlt
    have hfree : g.free = 0 := h.free.symm.trans hzero
    rw [Turnstile.ask, if_neg (h.not_shut hopen), if_pos rfl, if_neg (by omega)]
    refine ⟨rfl, hfree.symm, congrArg (· ++ [i]) h.line, h.isShut, fun j => ?_⟩
    rw [h.granted]
    by_cases hj : j = i
    · subst hj
      have hneed : ((a.acquire j 1).enqueue j cx).need j = 1 := by
        rw [Fair.need, Fair.enqueue, Store.get?_modify_self, hget]
        simp [Fair.acquire, hzero, Request.new]
      simp [suspend, hp, hneed]
    · have hneed : ((a.acquire i 1).enqueue i cx).need j = a.need j := by
        rw [← hother j hj, Fair.need, Fair.need, Fair.enqueue, Store.get?_modify_of_ne _ _ hj]
      simp [suspend, hj, hneed]

/-- Asking again. -/
theorem Shows.ask_again (h : Shows p a g) (hs : Slots b p a x n) (hp : p i = true) (cx : W) :
    (a.awaitOne i false cx).1 = (g.ask i false).1 ∧
      Shows (match (g.ask i false).1 with
        | .pending => suspend p i
        | .ready _ => resumed p i) (a.awaitOne i false cx).2 (g.ask i false).2 := by
  obtain ⟨r, hr, -⟩ := hs.exists_request hp
  have hneed := Fair.need_of_get? hr
  have hask := hs.again hp
  have hsound : (a.poll i cx).2.Sound :=
    hask.models.sound.poll hr (hask.models.need_eq hr hask.unfinished)
  have hpolled := Fair.polled cx hr
  rw [Fair.awaitOne, if_neg Bool.false_ne_true]
  generalize a.poll i cx = pa at hpolled hsound
  cases hpolled with
  | closed hc =>
    rw [Turnstile.ask, if_pos (h.isShut.symm.trans hc)]
    exact ⟨rfl, h.leave hs hp⟩
  | collected hopen _ hzero =>
    have hserved : a.need i = 0 := hneed.trans hzero
    have hwaiting : a.waiting.erase i = a.waiting :=
      List.erase_of_not_mem (hs.not_mem_waiting hp hserved)
    have hself : (a.collect i).requests.get? i = some { r with queued := false } := by
      simp [Fair.collect, hr]
    have hcancel : (a.collect i).cancel i = (a.collect i).remove i :=
      hsound.cancel_of_held hself rfl
    rw [Turnstile.ask, if_neg (h.not_shut hopen), if_neg Bool.false_ne_true,
      if_pos ((h.granted i).mpr ⟨hp, hserved⟩)]
    refine ⟨rfl, ?_⟩
    simp only [hcancel]
    refine h.remove h.free (hwaiting.trans h.line) h.isShut rfl fun j hj => ?_
    rw [Fair.need, Fair.need, Fair.collect, Store.get?_modify_of_ne _ _ hj]
  | waiting hopen _ hpos =>
    have hnot : i ∉ g.granted := fun hmem => by
      have hzero := ((h.granted i).mp hmem).2
      omega
    have hsame : suspend p i = p := by
      funext j
      by_cases hj : j = i <;> simp [suspend, hj, hp]
    rw [Turnstile.ask, if_neg (h.not_shut hopen), if_neg Bool.false_ne_true, if_neg hnot]
    refine ⟨rfl, ?_⟩
    simp only [hsame]
    refine ⟨h.free, h.line, h.isShut, fun j => ?_⟩
    have hkeeps : (a.reregister i cx).need j = a.need j := by
      rw [Fair.need, Fair.need, Fair.reregister, Store.get?_modify]
      split_ifs with hj
      · cases a.requests.get? j with
        | none => rfl
        | some r => exact Request.need_register cx r
      · rfl
    rw [hkeeps]
    exact h.granted j
  | taken _ hqueued _ | enqueued _ hqueued _ =>
    rw [hs.queued hp hr] at hqueued
    cases hqueued

/-- **Asking for a permit** does at the turnstile what it does at the semaphore. -/
theorem ask_spec (h : Shows p a g) (hs : Slots b p a x n) (hb : b ≤ Inner.maxPermits P)
    {first : Bool} (hi : p i = !first) (cx : W) :
    ∃ y c, x.awaitOne i first cx = .ok ((g.ask i first).1, y) ∧
      match (g.ask i first).1 with
      | .pending => Slots b (suspend p i) c y n ∧ Shows (suspend p i) c (g.ask i first).2
      | .ready e => (g.isShut = true ↔ e = .error .closed) ∧
          Slots b (resumed p i) c y (if g.isShut then n else n + 1) ∧
          Shows (resumed p i) c (g.ask i first).2 := by
  obtain ⟨y, hres, hy⟩ := hs.awaitOne hb hi cx
  have hask : (a.awaitOne i first cx).1 = (g.ask i first).1 ∧
      Shows (match (g.ask i first).1 with
        | .pending => suspend p i
        | .ready _ => resumed p i) (a.awaitOne i first cx).2 (g.ask i first).2 := by
    cases first with
    | true => exact h.ask_first hs hi cx
    | false => exact h.ask_again hs hi cx
  obtain ⟨hfst, hshows⟩ := hask
  rw [hfst] at hres hy
  refine ⟨y, (a.awaitOne i first cx).2, hres, ?_⟩
  rw [← h.isShut]
  cases hr : (g.ask i first).1 with
  | pending =>
    rw [hr] at hy hshows
    exact ⟨hy, hshows⟩
  | ready e =>
    rw [hr] at hy hshows
    exact ⟨hy.1, hy.2, hshows⟩

end Turnstile

end LocalSync.Semaphore
