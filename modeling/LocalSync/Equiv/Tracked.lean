/-
  `Tracked.Models x a`: the tracked semaphore `x` stands for the abstract
  semaphore `a`.  It refines `a`, `a` is sound, the sizes fit the counter, and
  the history fits.

  Each operation has one theorem: under its precondition it does not fault, it
  answers as its abstract counterpart does, and it leads to a state that stands
  for the abstract result.  The systems built on the semaphore use these
  theorems and never look at `Inner` again.
-/
import LocalSync.Equiv.History

namespace LocalSync.Semaphore.Tracked

open Lib

variable {P : PointerWidth} {W : Type} [Waker W]

/-- **`x` stands for the abstract semaphore `a`.** -/
structure Models (x : Tracked P W) (a : Fair W) : Prop where
  refines : Refines x.inner a []
  sound : a.Sound
  /-- The requests fit the packed counter. -/
  small : ∀ i n, a.sizes.get? i = some n → 2 * n.toNat < 2 ^ P.bits
  chronicle : Chronicle a x.history

variable {x : Tracked P W} {a : Fair W} {i : Addr} {r : Request W}

theorem new_models {n : ℕ} (hn : n ≤ Inner.maxPermits P) :
    Models (Tracked.new P W n) (Fair.new W n) :=
  ⟨new_spec W hn, .new W n, fun i n hr => by simp [Fair.new, Fair.sizes] at hr, .new W n⟩

namespace Models

/-- The live futures are the live requests. -/
theorem get?_eq (h : Models x a) (i : Addr) :
    a.requests.get? i = (x.inner.acquires.get? i).map Acquire.request := by
  rw [← h.refines.requests, Store.get?_map]

/-- A future that has not returned, and not queued, needs all it asked for. -/
theorem need_eq (h : Models x a) (hr : a.requests.get? i = some r)
    (hu : (x.history.track i).finished = false) (hq : r.queued = false) :
    r.need = r.size.toNat :=
  (h.chronicle.fresh i r hr (h.chronicle.firstPoll_eq_zero hr hu hq)).2.1

theorem acquire (h : Models x a) (hi : a.requests.get? i = none) {n : UInt32}
    (hn : 2 * n.toNat < 2 ^ P.bits) : Models (x.acquire i n) (a.acquire i n) where
  refines := acquire_spec h.refines hi n
  sound := h.sound.acquire hi n
  small j m hm := by
    rw [Fair.sizes_acquire, Store.get?_insert] at hm
    split_ifs at hm
    · obtain rfl := Option.some.inj hm
      exact hn
    · exact h.small j m hm
  chronicle := h.chronicle.acquire h.sound hi n

/-- **Polling** a future that has not returned yet. -/
theorem poll (h : Models x a) (hr : a.requests.get? i = some r)
    (hu : (x.history.track i).finished = false) (hmax : a.inside ≤ Inner.maxPermits P) (cx : W) :
    ∃ x', x.poll i cx = .ok ((a.poll i cx).1, x') ∧ Models x' (a.poll i cx).2 ∧
      x'.history = x.history.poll i cx ((a.poll i cx).2.woken i).length
        (a.poll i cx).1.isPending := by
  have hnew : r.queued = false → r.need = r.size.toNat := h.need_eq hr hu
  obtain ⟨s, hres, hs⟩ := poll_spec h.refines h.sound hr hnew
    (h.small i _ (Fair.sizes_of_get? hr)) ((Nat.le_add_right _ _).trans hmax) cx
  have hwakes : (wakesOf i s.woken).length = ((a.poll i cx).2.woken i).length := by
    rw [← hs.woken i, List.reverse_nil, List.append_nil]
  have hchron := h.chronicle.poll h.sound cx hr hu
  rw [← hwakes] at hchron ⊢
  obtain ⟨history, hhist⟩ : ∃ y, y = x.history.poll i cx (wakesOf i s.woken).length
      (a.poll i cx).1.isPending := ⟨_, rfl⟩
  rw [← hhist] at hchron ⊢
  refine ⟨{ inner := s, history }, ?_, ⟨hs, h.sound.poll hr hnew, ?_, hchron⟩, rfl⟩
  · rw [Tracked.poll, hres, ok_bind, hhist]
    rfl
  · rw [Fair.sizes_poll]
    exact h.small

/-- **Dropping** a future, at any time. -/
theorem drop (h : Models x a) (hr : a.requests.get? i = some r)
    (hmax : a.inside ≤ Inner.maxPermits P) :
    ∃ x', x.drop i = .ok x' ∧ Models x' (a.cancel i) ∧ x'.history = x.history := by
  have hsmall := h.small i _ (Fair.sizes_of_get? hr)
  have hle : (a.cancel i).available ≤ a.inside := by
    rw [← Fair.inside_cancel h.sound hr]
    exact Nat.le_add_right _ _
  obtain ⟨s, hres, hs⟩ := dropAcquire_spec h.refines h.sound hr (by omega) (hle.trans hmax)
  refine ⟨{ x with inner := s }, ?_, ⟨hs, h.sound.cancel i, fun j n hj => ?_,
    h.chronicle.cancel h.sound i⟩, rfl⟩
  · rw [Tracked.drop, hres, ok_bind]
    rfl
  · rw [Fair.sizes_cancel, Store.get?_erase] at hj
    split_ifs at hj
    exact h.small j n hj

theorem tryAcquire (h : Models x a) {n : UInt32} (hn : n.toNat ≤ Inner.maxPermits P)
    (hmax : a.inside ≤ Inner.maxPermits P) :
    ∃ x', x.tryAcquire n = .ok ((a.tryAcquire n).1, x') ∧ Models x' (a.tryAcquire n).2 ∧
      x'.history = x.history := by
  have hbound := two_mul_maxPermits P
  have hle : a.available ≤ a.inside := Nat.le_add_right _ _
  obtain ⟨s, hres, hs⟩ := tryAcquire_spec h.refines hn (counted_of_lt (by omega))
  refine ⟨{ x with inner := s }, ?_, ⟨hs, h.sound.tryAcquire n, ?_, h.chronicle.tryAcquire n⟩, rfl⟩
  · rw [Tracked.tryAcquire, hres, ok_bind]
    rfl
  · rw [Fair.sizes_tryAcquire]
    exact h.small

/-- **Releasing** permits. -/
theorem release (h : Models x a) {n : ℕ} (hmax : a.inside + n ≤ Inner.maxPermits P) :
    ∃ x', x.release n = .ok x' ∧ Models x' (a.release n) ∧ x'.history = x.history := by
  have hle : (a.release n).available ≤ a.inside + n := by
    rw [← Fair.inside_release h.sound n]
    exact Nat.le_add_right _ _
  obtain ⟨s, hres, hs⟩ := release_spec h.refines h.sound n (.of_le (hle.trans hmax))
  refine ⟨{ x with inner := s }, ?_, ⟨hs, h.sound.release n, ?_, h.chronicle.release h.sound n⟩,
    rfl⟩
  · rw [Tracked.release, hres, ok_bind]
    rfl
  · rw [Fair.sizes_release]
    exact h.small

/-- **Closing.** -/
theorem close (h : Models x a) :
    ∃ x', x.close = .ok x' ∧ Models x' a.close ∧ x'.history = x.history := by
  obtain ⟨s, hres, hs⟩ := close_spec h.refines h.sound
  refine ⟨{ x with inner := s }, ?_, ⟨hs, h.sound.close, ?_, h.chronicle.close h.sound⟩, rfl⟩
  · rw [Tracked.close, hres, ok_bind]
    rfl
  · rw [Fair.sizes_close]
    exact h.small

/-- Whether anybody has been woken between two states, as the log shows it and request by
request. -/
theorem woken_length_iff {y : Tracked P W} {c : Fair W} (h : Models x a) (h' : Models y c)
    (hlog : ∃ ws, y.inner.woken = x.inner.woken ++ ws) :
    y.inner.woken.length = x.inner.woken.length ↔ c.woken = a.woken := by
  obtain ⟨ws, hlog⟩ := hlog
  have hwoken : ∀ i, c.woken i = a.woken i ++ wakesOf i ws := by
    intro i
    have hx := h.refines.woken i
    have hy := h'.refines.woken i
    rw [List.reverse_nil, List.append_nil] at hx hy
    rw [← hx, ← hy, hlog, wakesOf_append]
  rw [hlog, List.length_append]
  constructor
  · intro hlen
    obtain rfl : ws = [] := List.eq_nil_of_length_eq_zero (by omega)
    funext i
    rw [hwoken i]
    exact List.append_nil _
  · intro heq
    cases ws with
    | nil => rfl
    | cons e ws =>
      have hself := hwoken e.1
      rw [heq, wakesOf_cons, if_pos rfl] at hself
      cases List.self_eq_append_right.mp hself

end Models

end LocalSync.Semaphore.Tracked
