/-
  `Store`, a finite store of live cells: the memory model under the linked
  structures of the development.

  A store maps finitely many live addresses to their contents.  Reading a dead
  address gives `none`, so a dereference of freed memory is visible in a model
  built on it.  Stores are extensional (`Store.ext_get?`), every operation is
  characterised by what `get?` sees afterwards, and `Store.sum` adds up a
  quantity over the live cells with one equation for each operation.
-/
import Mathlib.Algebra.BigOperators.Group.Finset.Basic
import Mathlib.Data.Finset.Lattice.Fold
import Mathlib.Order.Lattice.Nat

namespace Lib

/-- A finite store: the contents of the live addresses. -/
structure Store (ι α : Type*) where
  /-- The content of a live cell, `none` at a dead address. -/
  get? : ι → Option α
  /-- The live addresses. -/
  dom : Finset ι
  /-- Exactly the live addresses have a content. -/
  mem_dom : ∀ i, i ∈ dom ↔ (get? i).isSome = true

namespace Store

variable {ι α β M : Type*}

/-- Two stores with the same contents are equal: the domain follows. -/
theorem ext_get? {s t : Store ι α} (h : ∀ i, s.get? i = t.get? i) : s = t := by
  obtain ⟨f, d, hd⟩ := s
  obtain ⟨g, e, he⟩ := t
  obtain rfl : f = g := funext h
  obtain rfl : d = e := Finset.ext fun i => (hd i).trans (he i).symm
  rfl

theorem mem_dom_of_get? {s : Store ι α} {i : ι} {a : α} (h : s.get? i = some a) :
    i ∈ s.dom := by
  rw [s.mem_dom, h]
  rfl

theorem exists_get?_of_mem {s : Store ι α} {i : ι} (h : i ∈ s.dom) :
    ∃ a, s.get? i = some a :=
  Option.isSome_iff_exists.mp ((s.mem_dom i).mp h)

theorem not_mem_dom_iff {s : Store ι α} {i : ι} : i ∉ s.dom ↔ s.get? i = none := by
  rw [s.mem_dom, Bool.not_eq_true, Option.isSome_eq_false_iff, Option.isNone_iff_eq_none]

/-! ### Operations -/

/-- The store without live cells. -/
def empty : Store ι α where
  get? _ := none
  dom := ∅
  mem_dom i := by simp

/-- Apply `f` to the content of every live cell. -/
def map (f : α → β) (s : Store ι α) : Store ι β where
  get? i := (s.get? i).map f
  dom := s.dom
  mem_dom i := by rw [s.mem_dom, Option.isSome_map]

@[simp] theorem get?_empty (i : ι) : (empty : Store ι α).get? i = none := rfl

@[simp] theorem get?_map (s : Store ι α) (f : α → β) (i : ι) :
    (s.map f).get? i = (s.get? i).map f := rfl

variable [DecidableEq ι]

/-- Write `a` at address `i`, which becomes live. -/
def insert (s : Store ι α) (i : ι) (a : α) : Store ι α where
  get? j := if j = i then some a else s.get? j
  dom := Insert.insert i s.dom
  mem_dom j := by
    rw [Finset.mem_insert, s.mem_dom]
    by_cases hj : j = i <;> simp [hj]

/-- Free the cell at address `i`. -/
def erase (s : Store ι α) (i : ι) : Store ι α where
  get? j := if j = i then none else s.get? j
  dom := s.dom.erase i
  mem_dom j := by
    rw [Finset.mem_erase, s.mem_dom]
    by_cases hj : j = i <;> simp [hj]

/-- Change the content of the cell at address `i`, if it is live. -/
def modify (s : Store ι α) (i : ι) (f : α → α) : Store ι α where
  get? j := if j = i then (s.get? j).map f else s.get? j
  dom := s.dom
  mem_dom j := by
    rw [s.mem_dom]
    by_cases hj : j = i <;> simp [hj]

theorem get?_insert (s : Store ι α) (i j : ι) (a : α) :
    (s.insert i a).get? j = if j = i then some a else s.get? j := rfl

theorem get?_erase (s : Store ι α) (i j : ι) :
    (s.erase i).get? j = if j = i then none else s.get? j := rfl

theorem get?_modify (s : Store ι α) (i j : ι) (f : α → α) :
    (s.modify i f).get? j = if j = i then (s.get? j).map f else s.get? j := rfl

@[simp] theorem get?_insert_self (s : Store ι α) (i : ι) (a : α) :
    (s.insert i a).get? i = some a := by
  simp [get?_insert]

@[simp] theorem get?_erase_self (s : Store ι α) (i : ι) : (s.erase i).get? i = none := by
  simp [get?_erase]

@[simp] theorem get?_modify_self (s : Store ι α) (i : ι) (f : α → α) :
    (s.modify i f).get? i = (s.get? i).map f := by
  simp [get?_modify]

theorem get?_insert_of_ne (s : Store ι α) {i j : ι} (a : α) (h : j ≠ i) :
    (s.insert i a).get? j = s.get? j := by
  simp [get?_insert, h]

theorem get?_erase_of_ne (s : Store ι α) {i j : ι} (h : j ≠ i) :
    (s.erase i).get? j = s.get? j := by
  simp [get?_erase, h]

theorem get?_modify_of_ne (s : Store ι α) {i j : ι} (f : α → α) (h : j ≠ i) :
    (s.modify i f).get? j = s.get? j := by
  simp [get?_modify, h]

theorem eq_of_get?_modify_self {s : Store ι α} {i : ι} {f : α → α} {a b : α}
    (ha : s.get? i = some a) (hb : (s.modify i f).get? i = some b) : f a = b := by
  rw [get?_modify_self, ha] at hb
  exact Option.some.inj hb

/-- What is live after a modification was live before it. -/
theorem exists_of_get?_modify {s : Store ι α} {i j : ι} {f : α → α} {b : α}
    (h : (s.modify i f).get? j = some b) :
    ∃ a, s.get? j = some a ∧ b = if j = i then f a else a := by
  rw [get?_modify] at h
  split_ifs at h ⊢ with hj
  · obtain ⟨a, ha, rfl⟩ := Option.map_eq_some_iff.mp h
    exact ⟨a, ha, rfl⟩
  · exact ⟨b, h, rfl⟩

/-! ### Maps commute with the operations -/

theorem map_insert (s : Store ι α) (i : ι) (a : α) (f : α → β) :
    (s.insert i a).map f = (s.map f).insert i (f a) :=
  ext_get? fun j => by
    by_cases hj : j = i <;> simp [get?_insert, hj]

theorem map_erase (s : Store ι α) (i : ι) (f : α → β) :
    (s.erase i).map f = (s.map f).erase i :=
  ext_get? fun j => by
    by_cases hj : j = i <;> simp [get?_erase, hj]

theorem map_modify (s : Store ι α) (i : ι) (g : α → α) (f : α → β) (g' : β → β)
    (h : ∀ a, f (g a) = g' (f a)) : (s.modify i g).map f = (s.map f).modify i g' :=
  ext_get? fun j => by
    by_cases hj : j = i
    · simp [hj, Function.comp_def, h]
    · simp [get?_modify, hj]

/-- A change that the observation `f` does not see leaves the observed store alone. -/
theorem map_modify_of_invisible (s : Store ι α) (i : ι) (g : α → α) (f : α → β)
    (h : ∀ a, f (g a) = f a) : (s.modify i g).map f = s.map f :=
  ext_get? fun j => by
    by_cases hj : j = i
    · simp [hj, Function.comp_def, h]
    · simp [get?_modify, hj]

/-- A modification by the identity on the actual content changes nothing. -/
theorem modify_eq_self (s : Store ι α) (i : ι) (f : α → α)
    (h : ∀ a, s.get? i = some a → f a = a) : s.modify i f = s :=
  ext_get? fun j => by
    by_cases hj : j = i
    · subst hj
      cases ha : s.get? j with
      | none => simp [ha]
      | some a => simp [ha, h a ha]
    · simp [get?_modify, hj]

/-! ### Sums over the live cells -/

/-- The sum of `f` over the contents of the live cells. -/
def sum [AddCommMonoid M] (s : Store ι α) (f : α → M) : M :=
  ∑ i ∈ s.dom, (s.get? i).elim 0 f

variable [AddCommMonoid M]

omit [DecidableEq ι] in
@[simp] theorem sum_empty (f : α → M) : (empty : Store ι α).sum f = 0 := rfl

theorem sum_insert (s : Store ι α) (i : ι) (a : α) (f : α → M) (h : s.get? i = none) :
    (s.insert i a).sum f = f a + s.sum f := by
  have hi : i ∉ s.dom := not_mem_dom_iff.mpr h
  unfold sum
  show ∑ j ∈ Insert.insert i s.dom, ((s.insert i a).get? j).elim 0 f = _
  rw [Finset.sum_insert hi, get?_insert_self, Option.elim_some]
  congr 1
  refine Finset.sum_congr rfl fun j hj => ?_
  rw [get?_insert_of_ne s a (ne_of_mem_of_not_mem hj hi)]

/-- The part of a sum outside one live cell. -/
theorem sum_eq_add_erase (s : Store ι α) (i : ι) (a : α) (f : α → M) (h : s.get? i = some a) :
    s.sum f = f a + (s.erase i).sum f := by
  have hi : i ∈ s.dom := mem_dom_of_get? h
  unfold sum
  show _ = f a + ∑ j ∈ s.dom.erase i, ((s.erase i).get? j).elim 0 f
  rw [← Finset.add_sum_erase _ _ hi, h, Option.elim_some]
  congr 1
  refine Finset.sum_congr rfl fun j hj => ?_
  rw [get?_erase_of_ne s (Finset.ne_of_mem_erase hj)]

/-- A sum after a cell is written, whether it was live or not. -/
theorem sum_insert_eq (s : Store ι α) (i : ι) (a : α) (f : α → M) :
    (s.insert i a).sum f = f a + (s.erase i).sum f := by
  have herase : s.insert i a = (s.erase i).insert i a := by
    apply ext_get?
    intro j
    by_cases hj : j = i <;> simp [get?_insert, get?_erase, hj]
  rw [herase]
  exact sum_insert _ _ _ _ (get?_erase_self s i)

omit [DecidableEq ι] in
/-- A sum that is not zero has a live cell in it. -/
theorem exists_of_sum_ne_zero {s : Store ι α} {f : α → M} (h : s.sum f ≠ 0) :
    ∃ i a, s.get? i = some a ∧ f a ≠ 0 := by
  obtain ⟨i, hi, hne⟩ := Finset.exists_ne_zero_of_sum_ne_zero h
  obtain ⟨a, ha⟩ := exists_get?_of_mem hi
  rw [ha] at hne
  exact ⟨i, a, ha, hne⟩

theorem erase_modify (s : Store ι α) (i : ι) (f : α → α) : (s.modify i f).erase i = s.erase i :=
  ext_get? fun j => by
    by_cases hj : j = i <;> simp [get?_erase, get?_modify, hj]

/-- Changing one cell moves the sum by the change of that cell. -/
theorem sum_modify (s : Store ι α) (i : ι) (a : α) (g : α → α) (f : α → M)
    (h : s.get? i = some a) : (s.modify i g).sum f = f (g a) + (s.erase i).sum f := by
  rw [sum_eq_add_erase (s.modify i g) i (g a) f (by simp [h]), erase_modify]

/-- Changing one cell in a way that `f` does not see leaves the sum alone. -/
theorem sum_modify_of_eq (s : Store ι α) (i : ι) (g : α → α) (f : α → M)
    (h : ∀ a, s.get? i = some a → f (g a) = f a) : (s.modify i g).sum f = s.sum f := by
  cases ha : s.get? i with
  | none => rw [modify_eq_self s i g fun a h => by rw [ha] at h; cases h]
  | some a => rw [sum_modify s i a g f ha, h a ha, ← sum_eq_add_erase s i a f ha]

omit [DecidableEq ι] in
/-- A homomorphism goes through a sum. -/
theorem sum_hom {N : Type*} [AddCommMonoid N] (s : Store ι α) (f : α → M) (φ : M →+ N) :
    φ (s.sum f) = s.sum fun a => φ (f a) := by
  unfold sum
  rw [map_sum]
  refine Finset.sum_congr rfl fun i _ => ?_
  cases s.get? i with
  | none => exact φ.map_zero
  | some a => rfl

omit [DecidableEq ι] in
/-- Who is counted in a sum of multisets is in one of them. -/
theorem exists_of_mem_sum {s : Store ι α} {f : α → Multiset β} {b : β} (h : b ∈ s.sum f) :
    ∃ i a, s.get? i = some a ∧ b ∈ f a := by
  obtain ⟨i, hi, hb⟩ := Multiset.mem_sum.mp h
  obtain ⟨a, ha⟩ := exists_get?_of_mem hi
  rw [ha] at hb
  exact ⟨i, a, ha, hb⟩

omit [DecidableEq ι] in
/-- A sum over an observed store. -/
theorem sum_map (s : Store ι α) (g : α → β) (f : β → M) : (s.map g).sum f = s.sum (f ∘ g) := by
  unfold sum
  refine Finset.sum_congr rfl fun i _ => ?_
  rw [get?_map, Option.elim_map]

end Store

/-! ### Fresh addresses -/

namespace Store

variable {α : Type*}

/-- An address that is not live. -/
def fresh (s : Store ℕ α) : ℕ := s.dom.sup id + 1

theorem fresh_not_mem (s : Store ℕ α) : s.fresh ∉ s.dom := by
  intro h
  have hle : s.fresh ≤ s.dom.sup id := Finset.le_sup (f := id) h
  unfold fresh at hle
  omega

@[simp] theorem get?_fresh (s : Store ℕ α) : s.get? s.fresh = none :=
  not_mem_dom_iff.mp s.fresh_not_mem

end Store

end Lib
