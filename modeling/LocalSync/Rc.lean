/-
  `Rc`, a shared value that is dropped with the last reference to it.

  `Rc α` is what the references point to: the value beside its strong count.
  Reading through a reference is a `Fault.dangling` once the value is dropped.
  `Counts r n` says that `n` references are alive; cloning and dropping one keep
  it, and as long as one is alive the value can be read.
-/
import LocalSync.Basic

namespace LocalSync

/-- The memory behind an `Rc`. -/
structure Rc (α : Type) where
  strong : ℕ
  value : α
  /-- The value has been dropped. -/
  dropped : Bool

namespace Rc

variable {α : Type}

/-- `Rc::new`. -/
def new (value : α) : Rc α := { strong := 1, value, dropped := false }

/-- Read the value. -/
def deref (r : Rc α) : Except Fault α := if r.dropped then .error .dangling else .ok r.value

/-- Change the value in place. -/
def set (r : Rc α) (value : α) : Rc α := { r with value }

/-- `Rc::clone`. -/
def clone (r : Rc α) : Rc α := { r with strong := r.strong + 1 }

/-- `Rc::drop`. -/
def drop (r : Rc α) : Rc α :=
  { r with strong := r.strong - 1, dropped := r.dropped || r.strong == 1 }

@[simp] theorem value_set (r : Rc α) (a : α) : (r.set a).value = a := rfl

@[simp] theorem value_clone (r : Rc α) : r.clone.value = r.value := rfl

@[simp] theorem value_drop (r : Rc α) : r.drop.value = r.value := rfl

/-- There are `n` references, and the value lives as long as there are any. -/
structure Counts (r : Rc α) (n : ℕ) : Prop where
  strong : r.strong = n
  dropped : r.dropped = true ↔ n = 0

variable {r : Rc α} {n : ℕ}

namespace Counts

theorem new (a : α) : (Rc.new a).Counts 1 := ⟨rfl, by simp [Rc.new]⟩

/-- A reference that is alive can be read through. -/
theorem deref (h : r.Counts n) (hn : 0 < n) : r.deref = .ok r.value := by
  rw [Rc.deref, if_neg]
  intro hd
  have := h.dropped.mp hd
  omega

theorem set (h : r.Counts n) (a : α) : (r.set a).Counts n := ⟨h.strong, h.dropped⟩

theorem clone (h : r.Counts n) (hn : 0 < n) : r.clone.Counts (n + 1) := by
  refine ⟨congrArg (· + 1) h.strong, ?_⟩
  show r.dropped = true ↔ _
  rw [h.dropped]
  omega

theorem drop (h : r.Counts (n + 1)) : r.drop.Counts n := by
  have hstrong := h.strong
  constructor
  · show r.strong - 1 = n
    omega
  · show (r.dropped || r.strong == 1) = true ↔ n = 0
    rw [Bool.or_eq_true, h.dropped, beq_iff_eq, hstrong]
    omega

end Counts

end Rc

end LocalSync
