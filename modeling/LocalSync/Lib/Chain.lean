/-
  `Chain`, the path that a partial successor function draws through memory.

  `Chain next o l e` says that following `next` from `o` visits exactly the
  nodes `l` and then stands at `e`.  With `e = none` it is a finite
  singly-linked list; a doubly-linked list is a pair of chains over `next` and
  `prev` through the same nodes in opposite directions (`Linked`).

  A chain that ends is determined by its start (`Chain.unique`) and meets no
  node twice (`Chain.nodup`).  It survives any change of the links outside it
  (`Chain.congr`) and can be cut and joined (`chain_append`); the update lemmas
  of `Linked` (`pushFront`, `popBack`, `remove`) follow from these.
-/
import Mathlib.Data.List.Basic
import Mathlib.Data.List.Nodup
import Mathlib.Logic.Function.Basic

namespace Lib

variable {ι : Type*}

/-- Following `next` from `o` visits the nodes `l` in order and arrives at `e`. -/
def Chain (next : ι → Option ι) : Option ι → List ι → Option ι → Prop
  | o, [], e => o = e
  | o, a :: l, e => o = some a ∧ Chain next (next a) l e

namespace Chain

variable {next next' : ι → Option ι} {o m e : Option ι} {l l₁ l₂ : List ι} {a : ι}

@[simp] theorem nil_iff : Chain next o [] e ↔ o = e := Iff.rfl

@[simp] theorem cons_iff : Chain next o (a :: l) e ↔ o = some a ∧ Chain next (next a) l e :=
  Iff.rfl

/-- A chain can be cut after any prefix of its nodes. -/
theorem append_iff : Chain next o (l₁ ++ l₂) e ↔ ∃ m, Chain next o l₁ m ∧ Chain next m l₂ e := by
  induction l₁ generalizing o with
  | nil => simp
  | cons b l₁ ih => simp [ih, and_assoc]

/-- A chain starts at its first node, or is already at its end. -/
theorem start_eq (h : Chain next o l e) : o = l.head?.or e := by
  cases l with
  | nil => simpa using h
  | cons b l => simpa using h.1

/-- The successor of a node of an ending chain is the node after it. -/
theorem next_eq (h : Chain next o (l₁ ++ a :: l₂) none) : next a = l₂.head? := by
  obtain ⟨m, -, -, h⟩ := append_iff.mp h
  simpa using h.start_eq

/-- A chain depends on the links of its own nodes only. -/
theorem congr (h : Chain next o l e) (hag : ∀ b ∈ l, next' b = next b) : Chain next' o l e := by
  induction l generalizing o with
  | nil => exact h
  | cons b l ih =>
    obtain ⟨ho, hl⟩ := h
    refine ⟨ho, ?_⟩
    rw [hag b (List.mem_cons_self ..)]
    exact ih hl fun c hc => hag c (List.mem_cons_of_mem _ hc)

/-- Two ending chains from one start visit the same nodes. -/
theorem unique (h₁ : Chain next o l₁ none) (h₂ : Chain next o l₂ none) : l₁ = l₂ := by
  induction l₁ generalizing o l₂ with
  | nil =>
    cases l₂ with
    | nil => rfl
    | cons b l₂ => simp_all
  | cons b l₁ ih =>
    cases l₂ with
    | nil => simp_all
    | cons c l₂ =>
      obtain ⟨hb, h₁⟩ := h₁
      obtain ⟨hc, h₂⟩ := h₂
      obtain rfl : b = c := Option.some.inj (hb.symm.trans hc)
      rw [ih h₁ h₂]

/-- An ending chain meets no node twice: from a repeated node it would have two different
remainders. -/
theorem nodup (h : Chain next o l none) : l.Nodup := by
  induction l generalizing o with
  | nil => exact List.nodup_nil
  | cons b l ih =>
    refine List.nodup_cons.mpr ⟨fun hb => ?_, ih h.2⟩
    obtain ⟨u, v, rfl⟩ := List.append_of_mem hb
    obtain ⟨m, -, -, hv⟩ := append_iff.mp h.2
    have heq : v = u ++ b :: v := hv.unique h.2
    have hlen := congrArg List.length heq
    simp at hlen
    omega

variable [DecidableEq ι]

/-- Redirecting a node outside the chain does not matter. -/
theorem update_of_not_mem (h : Chain next o l e) (ha : a ∉ l) (x : Option ι) :
    Chain (Function.update next a x) o l e :=
  h.congr fun _ hb => Function.update_of_ne (ne_of_mem_of_not_mem hb ha) x next

/-- Redirecting the last node of a chain moves its end. -/
theorem redirect (h : Chain next o (l ++ [a]) m) (ha : a ∉ l) (x : Option ι) :
    Chain (Function.update next a x) o (l ++ [a]) x := by
  obtain ⟨m', h₁, h₂, -⟩ := append_iff.mp h
  refine append_iff.mpr ⟨m', h₁.update_of_not_mem ha x, h₂, ?_⟩
  simp

/-- **Extension.** A node that is new to an ending chain can be put behind its last node. -/
theorem extend {x : ι} (h : Chain next o (l ++ [a]) none) (hx : x ∉ l ++ [a]) :
    Chain (Function.update (Function.update next x none) a (some x)) o
      ((l ++ [a]) ++ [x]) none := by
  have ha : a ∉ l := fun ha =>
    (List.nodup_append.mp h.nodup).2.2 a ha a (List.mem_singleton_self a) rfl
  refine append_iff.mpr ⟨some x, (h.update_of_not_mem hx none).redirect ha _, rfl, ?_⟩
  have hxa : x ≠ a := fun hxa => hx (by simp [hxa])
  rw [Function.update_of_ne hxa, Function.update_self]
  rfl

/-- **Rotation.** The first node of an ending chain is cut out and put behind a later node `a`. -/
theorem rotate {x : ι} {u v : List ι} (h : Chain next (some x) (x :: (u ++ a :: v)) none) :
    Chain (Function.update (Function.update next x (next a)) a (some x)) (next x)
      ((u ++ [a]) ++ x :: v) none := by
  have hnd := h.nodup
  obtain ⟨hx, hnd⟩ := List.nodup_cons.mp hnd
  have hnda := List.nodup_append.mp hnd
  have hxa : x ≠ a := fun hxa => hx (by simp [hxa])
  have hau : a ∉ u := fun ha => hnda.2.2 a ha a (List.mem_cons_self ..) rfl
  have hav : a ∉ v := (List.nodup_cons.mp hnda.2.1).1
  have hxv : x ∉ v := fun hv => hx (by simp [hv])
  obtain ⟨m, hu, hm, hv⟩ := append_iff.mp h.2
  -- up to `a` the chain is redirected to `x`, which leads on to what came after `a`
  have hfront : Chain next (next x) (u ++ [a]) (next a) := append_iff.mpr ⟨m, hu, hm, rfl⟩
  have hxu : x ∉ u ++ [a] := fun hxu => hx (by
    rcases List.mem_append.mp hxu with hxu | hxu
    · exact List.mem_append_left _ hxu
    · exact absurd (List.mem_singleton.mp hxu) hxa)
  refine append_iff.mpr ⟨some x, (hfront.update_of_not_mem hxu _).redirect hau _, rfl, ?_⟩
  rw [Function.update_of_ne hxa, Function.update_self]
  exact (hv.update_of_not_mem hxv _).update_of_not_mem hav _

end Chain

section Positions

variable {α : Type*} {a : α} {l : List α} {n : ℕ}

/-- A list falls into what is before an entry and what is behind it. -/
theorem exists_split_of_getElem? (h : l[n]? = some a) : ∃ u w, l = u ++ a :: w ∧ u.length = n := by
  obtain ⟨hlt, rfl⟩ := List.getElem?_eq_some_iff.mp h
  refine ⟨l.take n, l.drop (n + 1), ?_, List.length_take_of_le (Nat.le_of_lt hlt)⟩
  rw [List.getElem_cons_drop, List.take_append_drop]

/-- The entry behind it. -/
theorem getElem?_split_succ (u w : List α) : (u ++ a :: w)[u.length + 1]? = w.head? := by
  rw [List.getElem?_append_right (by omega), Nat.add_sub_cancel_left, List.getElem?_cons_succ,
    List.head?_eq_getElem?]

/-- Where the entries are once the first one has moved behind `v`. -/
theorem getElem?_rotate (a : α) (v w : List α) (j : ℕ) :
    (v ++ a :: w)[j]? = if j < v.length then (a :: (v ++ w))[j + 1]?
      else if j = v.length then some a else (a :: (v ++ w))[j]? := by
  split_ifs with hj hj'
  · rw [List.getElem?_append_left hj, List.getElem?_cons_succ, List.getElem?_append_left hj]
  · rw [hj', List.getElem?_append_right (Nat.le_refl _), Nat.sub_self]
    rfl
  · obtain ⟨k, rfl⟩ : ∃ k, j = v.length + (k + 1) := ⟨j - v.length - 1, by omega⟩
    rw [List.getElem?_append_right (by omega), Nat.add_sub_cancel_left, List.getElem?_cons_succ,
      ← Nat.add_assoc, List.getElem?_cons_succ, List.getElem?_append_right (by omega),
      Nat.add_sub_cancel_left]

end Positions

/-! ### Doubly-linked lists -/

/-- The links once `x`, which came after `q`, has been cut out: its predecessor takes over the
link of `x`, and `x` itself links nowhere. -/
def bypass [DecidableEq ι] (next : ι → Option ι) (q : Option ι) (x : ι) : ι → Option ι :=
  match q with
  | some p => Function.update (Function.update next p (next x)) x none
  | none => Function.update next x none

/-- Cutting a node out of an ending chain. -/
theorem Chain.bypass [DecidableEq ι] {next : ι → Option ι} {o : Option ι} {u v : List ι} {x : ι}
    (h : Chain next o (u ++ x :: v) none) :
    Chain (bypass next u.getLast? x) (if u = [] then next x else o) (u ++ v) none := by
  have hnd := h.nodup
  obtain ⟨m, h₁, -, h₂⟩ := Chain.append_iff.mp h
  have hxu : x ∉ u := fun hu => (List.nodup_append.mp hnd).2.2 x hu x (List.mem_cons_self ..) rfl
  have hxv : x ∉ v := (List.nodup_cons.mp (List.nodup_append.mp hnd).2.1).1
  rcases List.eq_nil_or_concat' u with rfl | ⟨u, p, rfl⟩
  · simpa [Lib.bypass] using h₂.update_of_not_mem hxv none
  · -- `p` is the predecessor: the chain is redirected there and never sees `x` again.
    have hpu : p ∉ u := fun hu =>
      (List.nodup_append.mp (List.nodup_append.mp hnd).1).2.2 p hu p (List.mem_singleton_self p) rfl
    have hpv : p ∉ v := fun hv =>
      (List.nodup_append.mp hnd).2.2 p (by simp) p (List.mem_cons_of_mem _ hv) rfl
    simp only [Lib.bypass, List.getLast?_concat, List.append_eq_nil_iff, List.cons_ne_nil,
      and_false, ↓reduceIte]
    refine Chain.append_iff.mpr ⟨next x, ?_, ?_⟩
    · exact (h₁.redirect hpu _).update_of_not_mem hxu none
    · exact (h₂.update_of_not_mem hpv _).update_of_not_mem hxv none

/-- The nodes `l` form a doubly-linked list from `head` to `tail`: `next` traverses them forwards
and `prev` backwards, and no node outside has a link. -/
structure Linked (next prev : ι → Option ι) (head tail : Option ι) (l : List ι) : Prop where
  /-- `next` leads from `head` through the list. -/
  forward : Chain next head l none
  /-- `prev` leads from `tail` back through the list. -/
  backward : Chain prev tail l.reverse none
  /-- A node outside the list has no successor. -/
  next_outside : ∀ a, a ∉ l → next a = none
  /-- A node outside the list has no predecessor. -/
  prev_outside : ∀ a, a ∉ l → prev a = none

namespace Linked

variable {next prev : ι → Option ι} {head tail : Option ι} {l u v : List ι} {x : ι}

/-- The empty list. -/
theorem nil : Linked (fun _ : ι => none) (fun _ => none) none none [] :=
  ⟨rfl, rfl, fun _ _ => rfl, fun _ _ => rfl⟩

/-- A doubly-linked list read backwards. -/
theorem flip (h : Linked next prev head tail l) : Linked prev next tail head l.reverse where
  forward := h.backward
  backward := by rw [List.reverse_reverse]; exact h.forward
  next_outside a ha := h.prev_outside a fun hl => ha (List.mem_reverse.mpr hl)
  prev_outside a ha := h.next_outside a fun hl => ha (List.mem_reverse.mpr hl)

theorem nodup (h : Linked next prev head tail l) : l.Nodup := h.forward.nodup

theorem head_eq (h : Linked next prev head tail l) : head = l.head? := by
  simpa using h.forward.start_eq

theorem tail_eq (h : Linked next prev head tail l) : tail = l.getLast? := by
  simpa using h.backward.start_eq

/-- A doubly-linked list determines its nodes. -/
theorem unique (h : Linked next prev head tail u) (h' : Linked next prev head tail v) : u = v :=
  h.forward.unique h'.forward

/-- The successor of a node is the node after it. -/
theorem next_eq (h : Linked next prev head tail (u ++ x :: v)) : next x = v.head? :=
  h.forward.next_eq

/-- The predecessor of a node is the node before it. -/
theorem prev_eq (h : Linked next prev head tail (u ++ x :: v)) : prev x = u.getLast? := by
  have hb : Chain prev tail (v.reverse ++ x :: u.reverse) none := by
    simpa using h.backward
  rw [hb.next_eq, List.head?_reverse]

/-- No link leads out of the list. -/
theorem next_mem (h : Linked next prev head tail l) {a b : ι} (hab : next a = some b) : b ∈ l := by
  by_cases ha : a ∈ l
  · obtain ⟨u, v, rfl⟩ := List.append_of_mem ha
    rw [h.next_eq] at hab
    exact List.mem_append_right _ (List.mem_cons_of_mem _ (List.mem_of_head? hab))
  · rw [h.next_outside a ha] at hab
    cases hab

theorem prev_mem (h : Linked next prev head tail l) {a b : ι} (hab : prev a = some b) : b ∈ l :=
  List.mem_reverse.mp (h.flip.next_mem hab)

variable [DecidableEq ι]

/-- The `prev` links once `x` has been put before `head`. -/
def prepend (prev : ι → Option ι) (head : Option ι) (x : ι) : ι → Option ι :=
  match head with
  | some h => Function.update (Function.update prev x none) h (some x)
  | none => Function.update prev x none

/-- **Insertion at the front.** -/
theorem pushFront (h : Linked next prev head tail l) (hx : x ∉ l) :
    Linked (Function.update next x head) (prepend prev head x) (some x) (tail.or (some x))
      (x :: l) where
  forward := ⟨rfl, by simpa using h.forward.update_of_not_mem hx head⟩
  backward := by
    have hhd := h.head_eq
    have htl := h.tail_eq
    rw [List.reverse_cons]
    cases l with
    | nil =>
      simp only [List.head?_nil, List.getLast?_nil] at hhd htl
      simp [hhd, htl, prepend]
    | cons y l =>
      simp only [List.head?_cons] at hhd
      subst hhd
      have hxy : x ≠ y := fun hxy => hx (hxy ▸ List.mem_cons_self ..)
      have hb := h.backward
      rw [List.reverse_cons] at hb
      have hy : y ∉ l.reverse := fun hy => (List.nodup_cons.mp h.nodup).1 (List.mem_reverse.mp hy)
      have hx' : x ∉ l.reverse ++ [y] := by simpa [and_comm, not_or] using hx
      have htl' : tail.or (some x) = tail := by rw [htl, List.getLast?_cons]; rfl
      rw [htl', List.reverse_cons]
      -- `y`, the old head, is redirected from the end of the list to `x`.
      refine Chain.append_iff.mpr ⟨some x, (hb.update_of_not_mem hx' none).redirect hy _, rfl, ?_⟩
      show prepend prev (some y) x x = none
      rw [prepend, Function.update_of_ne hxy, Function.update_self]
  next_outside a ha := by
    rw [List.mem_cons, not_or] at ha
    rw [Function.update_of_ne ha.1, h.next_outside a ha.2]
  prev_outside a ha := by
    rw [List.mem_cons, not_or] at ha
    have hhd := h.head_eq
    cases l with
    | nil =>
      rw [List.head?_nil] at hhd
      rw [hhd, prepend, Function.update_of_ne ha.1, h.prev_outside a ha.2]
    | cons y l =>
      rw [List.head?_cons] at hhd
      have hay : a ≠ y := fun hay => ha.2 (hay ▸ List.mem_cons_self ..)
      rw [hhd, prepend, Function.update_of_ne hay, Function.update_of_ne ha.1,
        h.prev_outside a ha.2]

theorem bypass_outside {q : Option ι} {a : ι} (hq : ∀ p, q = some p → p ∈ u)
    (h : a ≠ x → next a = none) (ha : a ∉ u) : bypass next q x a = none := by
  by_cases hax : a = x
  · subst hax
    cases q <;> simp [bypass]
  · cases q with
    | none => rw [bypass, Function.update_of_ne hax, h hax]
    | some p =>
      have hap : a ≠ p := fun hap => ha (hap ▸ hq p rfl)
      rw [bypass, Function.update_of_ne hax, Function.update_of_ne hap, h hax]

/-- **Removal from any position.** -/
theorem remove (h : Linked next prev head tail (u ++ x :: v)) :
    Linked (bypass next (prev x) x) (bypass prev (next x) x)
      (if u = [] then next x else head) (if v = [] then prev x else tail) (u ++ v) where
  forward := by
    rw [h.prev_eq]
    exact h.forward.bypass
  backward := by
    have hb : Chain prev tail (v.reverse ++ x :: u.reverse) none := by
      simpa using h.backward
    rw [h.next_eq, ← List.getLast?_reverse, List.reverse_append]
    simpa using hb.bypass
  next_outside a ha := by
    rw [h.prev_eq]
    refine bypass_outside (u := u) (fun p hp => List.mem_of_getLast? hp) (fun hax => ?_) ?_
    · refine h.next_outside a fun hm => ?_
      simp only [List.mem_append, List.mem_cons, not_or] at ha hm
      tauto
    · exact fun hu => ha (List.mem_append_left _ hu)
  prev_outside a ha := by
    rw [h.next_eq]
    refine bypass_outside (u := v) (fun p hp => List.mem_of_head? hp) (fun hax => ?_) ?_
    · refine h.prev_outside a fun hm => ?_
      simp only [List.mem_append, List.mem_cons, not_or] at ha hm
      tauto
    · exact fun hv => ha (List.mem_append_right _ hv)

/-- **Removal at the back.** -/
theorem popBack (h : Linked next prev head tail (u ++ [x])) :
    Linked (bypass next (prev x) x) (Function.update prev x none)
      (if u = [] then none else head) (prev x) u := by
  have hn : next x = none := by simpa using h.next_eq
  have hr := h.remove
  rw [hn] at hr
  simpa [bypass] using hr

end Linked

end Lib
