/-
  The limit on the number of permits.

  `add_permits` compares the amount that it adds with the limit, not the sum, and
  `new` masks its argument.  So a semaphore that nobody waits for counts modulo
  the width of its packed counter (`addAll_cases`), and the documented limit is
  enforced only when the sum keeps to it, or when a single amount exceeds it
  (`limit_enforced_iff`).
-/
import LocalSync.Equiv.Wrapping
import Mathlib.Algebra.GroupWithZero.Nat

namespace LocalSync.Semaphore

open Lib

variable {P : PointerWidth} {W : Type}

namespace System

/-- `add_permits`, with one amount after the other. -/
def addAll (s : System P W) (ns : List ℕ) : Inner.Outcome P W (System P W) :=
  ns.foldlM System.addPermits s

/-- What is documented about the limit, for `Semaphore::new(p)` and then `add_permits` with the
amounts `ns`: some call panics, or no permit is lost and there are at most `MAX_PERMITS`. -/
def LimitEnforced (W : Type) (p : UInt64) (ns : List UInt64) : Prop :=
  (∃ u message, (System.new .w64 W p.toNat).addAll (ns.map UInt64.toNat) = .error u ∧
    u.fault = .panic message) ∨
  ∃ s, (System.new .w64 W p.toNat).addAll (ns.map UInt64.toNat) = .ok s ∧
    s.sem.inner.availablePermits = p.toNat + (ns.map UInt64.toNat).sum ∧
    s.sem.inner.availablePermits ≤ Inner.maxPermits .w64

variable {s : System P W} {k n : ℕ} {ns : List ℕ}

/-- An amount is added to a semaphore that nobody waits for. -/
theorem addPermits_cases (h : Refines s.sem.inner (Fair.new W k) []) (hk : counted P k = k)
    (n : ℕ) :
    (n ≤ Inner.maxPermits P ∧ ∃ t, s.addPermits n = .ok t ∧
      Refines t.sem.inner (Fair.new W (counted P (k + n))) []) ∨
    (Inner.maxPermits P < n ∧ ∃ u message, s.addPermits n = .error u ∧
      u.fault = .panic message) := by
  have hrelease : (Fair.new W k).release n = Fair.new W (k + n) := Fair.release_of_nil rfl n
  have hcases := release_cases h (.new W k) hk n
  rw [hrelease] at hcases
  rcases hcases with ⟨hle, y, hy, hrefines⟩ | ⟨hlt, u, batch, hu, hpanic⟩
  · refine Or.inl ⟨Nat.le_of_add_le_add_left hle,
      { s with sem := { s.sem with inner := y }, added := s.added + n }, ?_, hrefines⟩
    rw [addPermits, Tracked.release, hy]
    rfl
  · refine Or.inr ⟨Nat.lt_of_add_lt_add_left hlt, u, _, ?_, hpanic.fault⟩
    rw [addPermits, Tracked.release, hu]
    rfl

/-- **What the counter counts.** A single amount beyond the maximum panics; otherwise the sum goes
into the counter, modulo its width. -/
theorem addAll_cases (h : Refines s.sem.inner (Fair.new W k) []) (hk : counted P k = k)
    (ns : List ℕ) :
    ((∀ n ∈ ns, n ≤ Inner.maxPermits P) ∧ ∃ t, s.addAll ns = .ok t ∧
      t.sem.inner.availablePermits = counted P (k + ns.sum)) ∨
    ((∃ n ∈ ns, Inner.maxPermits P < n) ∧ ∃ u message, s.addAll ns = .error u ∧
      u.fault = .panic message) := by
  induction ns generalizing s k with
  | nil =>
    refine Or.inl ⟨nofun, s, rfl, ?_⟩
    rw [List.sum_nil, Nat.add_zero, hk]
    exact h.availablePermits
  | cons n ns ih =>
    rw [addAll, List.foldlM_cons]
    rcases addPermits_cases h hk n with ⟨hle, t, ht, hrefines⟩ | ⟨hlt, u, message, hu, hpanic⟩
    · rw [ht, ok_bind]
      rcases ih hrefines (counted_counted P _) with ⟨hall, v, hv, hav⟩ | ⟨⟨m, hm, hlt⟩, hpanic⟩
      · refine Or.inl ⟨List.forall_mem_cons.mpr ⟨hle, hall⟩, v, hv, ?_⟩
        rw [hav, List.sum_cons, ← Nat.add_assoc, counted, counted, counted, Nat.mod_add_mod]
      · exact Or.inr ⟨⟨m, List.mem_cons_of_mem n hm, hlt⟩, hpanic⟩
    · rw [hu, error_bind]
      exact Or.inr ⟨⟨n, List.mem_cons_self, hlt⟩, u, message, rfl, hpanic⟩

/-- **The limit is enforced exactly** when one of the amounts alone exceeds it, or when the sum
keeps to it. -/
theorem limit_enforced_iff (W : Type) (p : UInt64) (ns : List UInt64) :
    LimitEnforced W p ns ↔ (∃ n ∈ ns, Inner.maxPermits .w64 < n.toNat) ∨
      p.toNat + (ns.map UInt64.toNat).sum ≤ Inner.maxPermits .w64 := by
  have hbound := two_mul_maxPermits .w64
  have hle : p.toNat &&& Inner.maxPermits .w64 ≤ Inner.maxPermits .w64 := Nat.and_le_right
  have hnew : Refines (System.new .w64 W p.toNat).sem.inner
      (Fair.new W (p.toNat &&& Inner.maxPermits .w64)) [] := by
    show Refines (Inner.new .w64 W p.toNat) _ []
    rw [new_mask]
    exact new_spec W hle
  have hcases := addAll_cases hnew (counted_of_lt (by omega)) (ns.map UInt64.toNat)
  constructor
  · rintro (⟨u, message, hu, -⟩ | ⟨s, hs, heq, hmax⟩)
    · rcases hcases with ⟨-, t, ht, -⟩ | ⟨⟨n, hn, hlt⟩, -⟩
      · rw [hu] at ht
        cases ht
      · obtain ⟨m, hm, hmn⟩ := List.mem_map.mp hn
        exact Or.inl ⟨m, hm, hmn ▸ hlt⟩
    · exact Or.inr (heq ▸ hmax)
  · intro hcond
    rcases hcases with ⟨hall, t, ht, hav⟩ | ⟨-, hpanic⟩
    · -- no amount exceeds the limit, so the sum keeps to it, and nothing is lost
      rcases hcond with ⟨n, hn, hlt⟩ | hsum
      · exact absurd (hall _ (List.mem_map_of_mem hn)) (Nat.not_le.mpr hlt)
      · rw [land_maxPermits .w64 (by omega), counted_of_lt (by omega)] at hav
        exact Or.inr ⟨t, ht, hav, hav ▸ hsum⟩
    · exact Or.inl hpanic

/-- One permit more than the maximum is accepted, and a constructor argument is truncated. -/
theorem limit_exceeded : ¬ LimitEnforced ℕ 2305843009213693951 [1] ∧
    ¬ LimitEnforced ℕ 2305843009213693952 [] := by
  have hadd : ((System.new .w64 ℕ 2305843009213693951).addAll [1]).toOption.map
      (fun s => s.sem.inner.availablePermits) = some (Inner.maxPermits .w64 + 1) := by
    decide +kernel
  have hnew : ((System.new .w64 ℕ 2305843009213693952).addAll []).toOption.map
      (fun s => s.sem.inner.availablePermits) = some 0 := by
    decide +kernel
  constructor
  · rintro (⟨u, message, hu, -⟩ | ⟨s, hs, -, hmax⟩)
    · rw [show (System.new .w64 ℕ 2305843009213693951).addAll [1] = .error u from hu] at hadd
      cases hadd
    · rw [show (System.new .w64 ℕ 2305843009213693951).addAll [1] = .ok s from hs] at hadd
      have hav : s.sem.inner.availablePermits = Inner.maxPermits .w64 + 1 := Option.some.inj hadd
      omega
  · rintro (⟨u, message, hu, -⟩ | ⟨s, hs, heq, -⟩)
    · cases hu
    · rw [show (System.new .w64 ℕ 2305843009213693952).addAll [] = .ok s from hs] at hnew
      have hav : s.sem.inner.availablePermits = 0 := Option.some.inj hnew
      rw [hav] at heq
      cases heq

end System

end LocalSync.Semaphore
