/-
  Flags in a machine word.

  `Flags F w` gives each flag of `F` a mask in a word of `w` bits; the masks are
  disjoint and not zero.  A flag is tested, set and unset with its mask, the way
  code does it; the `has_` lemmas say what each operation does to each test.
-/
import Mathlib.Data.BitVec

namespace Lib

/-- Flags with disjoint masks. -/
structure Flags (F : Type*) (w : ℕ) where
  mask : F → BitVec w
  mask_ne : ∀ f, mask f ≠ 0#w
  disjoint : ∀ f g, f ≠ g → mask f &&& mask g = 0#w

namespace Flags

variable {F : Type*} {w : ℕ} (φ : Flags F w) (s : BitVec w) (f g : F)

/-- Test a flag. -/
def has : Bool := s &&& φ.mask f == φ.mask f

/-- Set a flag. -/
def set : BitVec w := s ||| φ.mask f

/-- Unset a flag. -/
def unset : BitVec w := s &&& ~~~φ.mask f

theorem has_iff : φ.has s f = true ↔ s &&& φ.mask f = φ.mask f := beq_iff_eq

@[simp] theorem has_zero : φ.has 0#w f = false := by
  rw [has, BitVec.zero_and, beq_eq_false_iff_ne]
  exact (φ.mask_ne f).symm

@[simp] theorem has_set_self : φ.has (φ.set s f) f = true := by
  rw [has_iff, set]
  ext i hi
  rw [BitVec.getElem_and, BitVec.getElem_or]
  cases s[i] <;> cases (φ.mask f)[i] <;> rfl

@[simp] theorem has_unset_self : φ.has (φ.unset s f) f = false := by
  have hand : s &&& ~~~φ.mask f &&& φ.mask f = 0#w := by
    ext i hi
    rw [BitVec.getElem_and, BitVec.getElem_and, BitVec.getElem_not, BitVec.getElem_zero]
    cases s[i] <;> cases (φ.mask f)[i] <;> rfl
  rw [has, unset, hand, beq_eq_false_iff_ne]
  exact (φ.mask_ne f).symm

variable {f g}

/-- No bit belongs to two flags. -/
theorem getElem_disjoint (h : g ≠ f) {i : ℕ} (hi : i < w) :
    ((φ.mask f)[i] && (φ.mask g)[i]) = false := by
  rw [← BitVec.getElem_and, φ.disjoint f g h.symm, BitVec.getElem_zero]

theorem has_set_of_ne (h : g ≠ f) : φ.has (φ.set s f) g = φ.has s g := by
  have hand : (s ||| φ.mask f) &&& φ.mask g = s &&& φ.mask g := by
    ext i hi
    have hbit := φ.getElem_disjoint h hi
    rw [BitVec.getElem_and, BitVec.getElem_or, BitVec.getElem_and]
    revert hbit
    cases s[i] <;> cases (φ.mask f)[i] <;> cases (φ.mask g)[i] <;> decide
  rw [has, has, set, hand]

theorem has_unset_of_ne (h : g ≠ f) : φ.has (φ.unset s f) g = φ.has s g := by
  have hand : s &&& ~~~φ.mask f &&& φ.mask g = s &&& φ.mask g := by
    ext i hi
    have hbit := φ.getElem_disjoint h hi
    rw [BitVec.getElem_and, BitVec.getElem_and, BitVec.getElem_not, BitVec.getElem_and]
    revert hbit
    cases s[i] <;> cases (φ.mask f)[i] <;> cases (φ.mask g)[i] <;> decide
  rw [has, has, unset, hand]

/-- Setting a flag that is set changes nothing. -/
theorem set_of_has (h : φ.has s f = true) : φ.set s f = s := by
  rw [has_iff] at h
  calc φ.set s f = s ||| s &&& φ.mask f := by rw [h, set]
    _ = s := by
      ext i hi
      rw [BitVec.getElem_or, BitVec.getElem_and]
      cases s[i] <;> cases (φ.mask f)[i] <;> rfl

/-- Whether the flag was unset before makes no difference. -/
theorem set_unset : φ.set (φ.unset s f) f = φ.set s f := by
  rw [set, set, unset]
  ext i hi
  rw [BitVec.getElem_or, BitVec.getElem_or, BitVec.getElem_and, BitVec.getElem_not]
  cases s[i] <;> cases (φ.mask f)[i] <;> rfl

end Flags

end Lib
