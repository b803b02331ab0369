/-
  The linked list refines a duplicate-free sequence.

  `Represents l h xs` says that the list `l` over the memory `h` is the
  sequence `xs`, first element at the head.  Each operation has one
  specification that gives its result, the sequence afterwards and the frame:
  the payload of every node (`SamePayload`) and all links of the nodes that are
  not next to the change (`Untouched`) stay as they were.
-/
import LocalSync.LinkedList

namespace LocalSync

open Lib

namespace LinkedList

variable {T : Type} [Link T]

/-- The list `l` over the memory `h` is the sequence `xs`: its live nodes, linked in this
order. -/
structure Represents (l : LinkedList) (h : Store Addr T) (xs : List Addr) : Prop where
  /-- The pointers form a doubly-linked list through `xs`. -/
  linked : Linked (nextOf h) (prevOf h) l.head l.tail xs
  /-- Every node of the list is live. -/
  live : ∀ a ∈ xs, a ∈ h.dom

/-- Whatever does not look at the pointers sees the same memory. -/
def SamePayload (h h' : Store Addr T) : Prop :=
  ∀ (β : Type) (f : T → β), (∀ t p, f (Link.setPointers t p) = f t) → h'.map f = h.map f

/-- The nodes outside `changed` are as they were, pointers included. -/
def Untouched (changed : List Addr) (h h' : Store Addr T) : Prop :=
  ∀ a, a ∉ changed → h'.get? a = h.get? a

section Frame

variable {h h' h'' : Store Addr T} {c c' : List Addr}

theorem SamePayload.refl (h : Store Addr T) : SamePayload h h := fun _ _ _ => rfl

theorem SamePayload.trans (h₁ : SamePayload h h') (h₂ : SamePayload h' h'') :
    SamePayload h h'' :=
  fun β f hf => (h₂ β f hf).trans (h₁ β f hf)

theorem SamePayload.dom_eq (hs : SamePayload h h') : h'.dom = h.dom :=
  congrArg (fun s : Store Addr Unit => s.dom) (hs Unit (fun _ => ()) fun _ _ => rfl)

theorem samePayload_withNext (a : Addr) (v : Option Addr) : SamePayload h (withNext h a v) :=
  fun _ f hf => Store.map_modify_of_invisible h a _ f fun t => hf t _

theorem samePayload_withPrev (a : Addr) (v : Option Addr) : SamePayload h (withPrev h a v) :=
  fun _ f hf => Store.map_modify_of_invisible h a _ f fun t => hf t _

theorem untouched_withNext (a : Addr) (v : Option Addr) : Untouched [a] h (withNext h a v) :=
  fun _ hb => Store.get?_modify_of_ne _ _ fun hba => hb (hba ▸ List.mem_singleton_self _)

theorem untouched_withPrev (a : Addr) (v : Option Addr) : Untouched [a] h (withPrev h a v) :=
  fun _ hb => Store.get?_modify_of_ne _ _ fun hba => hb (hba ▸ List.mem_singleton_self _)

end Frame

/-- The frame of an operation: same payload, and only the nodes in `changed` had a link
rewritten. -/
structure Frame (changed : List Addr) (h h' : Store Addr T) : Prop where
  payload : SamePayload h h'
  untouched : Untouched changed h h'

namespace Frame

variable {h h' h'' : Store Addr T} {c c' : List Addr} {a : Addr}

theorem refl (h : Store Addr T) : Frame c h h := ⟨.refl h, fun _ _ => rfl⟩

theorem trans (h₁ : Frame c h h') (h₂ : Frame c h' h'') : Frame c h h'' :=
  ⟨h₁.payload.trans h₂.payload, fun a ha => (h₂.untouched a ha).trans (h₁.untouched a ha)⟩

theorem mono (h₁ : Frame c h h') (hc : c ⊆ c') : Frame c' h h' :=
  ⟨h₁.payload, fun a ha => h₁.untouched a fun hm => ha (hc hm)⟩

theorem dom_eq (h₁ : Frame c h h') : h'.dom = h.dom := h₁.payload.dom_eq

theorem next (h₁ : Frame c h h') (ha : a ∈ c) (v : Option Addr) : Frame c h (withNext h' a v) :=
  h₁.trans (.mono ⟨samePayload_withNext a v, untouched_withNext a v⟩ (by simpa using ha))

theorem prev (h₁ : Frame c h h') (ha : a ∈ c) (v : Option Addr) : Frame c h (withPrev h' a v) :=
  h₁.trans (.mono ⟨samePayload_withPrev a v, untouched_withPrev a v⟩ (by simpa using ha))

end Frame

/-! ### The represented sequence -/

section Represents

variable {l : LinkedList} {h : Store Addr T} {xs ys : List Addr}

theorem Represents.head_eq (hr : l.Represents h xs) : l.head = xs.head? := hr.linked.head_eq

theorem Represents.tail_eq (hr : l.Represents h xs) : l.tail = xs.getLast? := hr.linked.tail_eq

theorem Represents.nodup (hr : l.Represents h xs) : xs.Nodup := hr.linked.nodup

/-- The list determines its sequence. -/
theorem Represents.unique (hr : l.Represents h xs) (hr' : l.Represents h ys) : xs = ys :=
  hr.linked.unique hr'.linked

/-- A node outside the list has both links `None`. -/
theorem Represents.pointers_outside (hr : l.Represents h xs) {a : Addr} {t : T} (ha : a ∉ xs)
    (ht : h.get? a = some t) : Link.pointers t = Pointers.new := by
  have hn := hr.linked.next_outside a ha
  have hp := hr.linked.prev_outside a ha
  simp only [nextOf, prevOf, ht, Option.bind_some] at hn hp
  calc Link.pointers t = ⟨(Link.pointers t).prev, (Link.pointers t).next⟩ := rfl
    _ = ⟨none, none⟩ := by rw [hn, hp]

end Represents

theorem new_represents : new.Represents (Store.empty : Store Addr T) [] where
  linked := Linked.nil
  live _ ha := absurd ha List.not_mem_nil

/-- What happens off the list does not change it: the memory outside the links is free to
change, and so are the nodes that are not in the list. -/
theorem Represents.congr {l : LinkedList} {h h' : Store Addr T} {xs : List Addr}
    (hr : l.Represents h xs) (hnext : nextOf h' = nextOf h) (hprev : prevOf h' = prevOf h)
    (hlive : ∀ a ∈ xs, a ∈ h'.dom) : l.Represents h' xs :=
  ⟨by rw [hnext, hprev]; exact hr.linked, hlive⟩

/-! ### The operations -/

section Operations

variable {l : LinkedList} {h : Store Addr T} {xs u v : List Addr} {x : Addr}

/-- The memory after `x` has been linked in before `head`. -/
def linkFront (h : Store Addr T) (head : Option Addr) (x : Addr) : Store Addr T :=
  match head with
  | some y => withPrev (withPrev (withNext h x head) x none) y (some x)
  | none => withPrev (withNext h x head) x none

/-- What `push_front` computes when its assertion holds and the nodes it touches are live. -/
theorem pushFront_eq (hne : l.head ≠ some x) (hx : x ∈ h.dom)
    (hhead : ∀ y, l.head = some y → y ∈ h.dom) :
    l.pushFront h x = .ok (⟨some x, l.tail.or (some x)⟩, linkFront h l.head x) := by
  obtain ⟨head, tail⟩ := l
  have hassert : (head != some x) = true := bne_iff_ne.mpr hne
  have htail : (if tail.isNone then some x else tail) = tail.or (some x) := by
    cases tail <;> rfl
  have hx' : x ∈ (withNext h x head).dom := hx
  cases head with
  | none =>
    simp only [pushFront, hassert, assert_true, ok_bind, setNext_eq hx, setPrev_eq hx', htail,
      linkFront, pure_eq_ok]
  | some y =>
    have hy : y ∈ (withPrev (withNext h x (some y)) x none).dom := hhead y rfl
    simp only [pushFront, hassert, assert_true, ok_bind, setNext_eq hx, setPrev_eq hx',
      setPrev_eq hy, htail, linkFront, pure_eq_ok]

theorem nextOf_linkFront (head : Option Addr) (hx : x ∈ h.dom) :
    nextOf (linkFront h head x) = Function.update (nextOf h) x head := by
  cases head <;> simp [linkFront, nextOf_withNext hx]

theorem prevOf_linkFront (head : Option Addr) (hx : x ∈ h.dom)
    (hhead : ∀ y, head = some y → y ∈ h.dom) :
    prevOf (linkFront h head x) = Linked.prepend (prevOf h) head x := by
  have hx' : x ∈ (withNext h x head).dom := hx
  cases head with
  | none => simp [linkFront, Linked.prepend, prevOf_withPrev hx']
  | some y =>
    have hy : y ∈ (withPrev (withNext h x (some y)) x none).dom := hhead y rfl
    simp [linkFront, Linked.prepend, prevOf_withPrev hx', prevOf_withPrev hy]

theorem frame_linkFront (head : Option Addr) : Frame (x :: head.toList) h (linkFront h head x) := by
  have hf : Frame (x :: head.toList) h (withPrev (withNext h x head) x none) :=
    ((Frame.refl h).next (List.mem_cons_self ..) _).prev (List.mem_cons_self ..) _
  cases head with
  | none => exact hf
  | some y => exact hf.prev (by simp) _

/-- **`push_front`** puts a live node that is not in the list before the first one. -/
theorem pushFront_spec (hr : l.Represents h xs) (hx : x ∉ xs) (hlive : x ∈ h.dom) :
    ∃ l' h', l.pushFront h x = .ok (l', h') ∧ l'.Represents h' (x :: xs) ∧
      Frame (x :: xs.head?.toList) h h' := by
  have hhead : ∀ y, l.head = some y → y ∈ xs := fun y hy =>
    List.mem_of_head? (hr.head_eq.symm.trans hy)
  have hhlive : ∀ y, l.head = some y → y ∈ h.dom := fun y hy => hr.live y (hhead y hy)
  have hframe : Frame (x :: xs.head?.toList) h (linkFront h l.head x) :=
    hr.head_eq ▸ frame_linkFront l.head
  refine ⟨_, _, pushFront_eq (fun hh => hx (hhead x hh)) hlive hhlive, ⟨?_, ?_⟩, hframe⟩
  · rw [nextOf_linkFront _ hlive, prevOf_linkFront _ hlive hhlive]
    exact hr.linked.pushFront hx
  · intro a ha
    rw [hframe.dom_eq]
    rcases List.mem_cons.mp ha with rfl | ha
    · exact hlive
    · exact hr.live a ha

/-! #### Cutting a node out -/

/-- The memory after the node before `x` has taken over its `next` link. -/
def skipNext (h : Store Addr T) (q n : Option Addr) : Store Addr T :=
  match q with
  | some p => withNext h p n
  | none => h

/-- The memory after the node after `x` has taken over its `prev` link. -/
def skipPrev (h : Store Addr T) (q n : Option Addr) : Store Addr T :=
  match n with
  | some p => withPrev h p q
  | none => h

section Skip

variable {q n : Option Addr}

@[simp] theorem dom_skipNext : (skipNext h q n).dom = h.dom := by cases q <;> rfl

@[simp] theorem dom_skipPrev : (skipPrev h q n).dom = h.dom := by cases n <;> rfl

@[simp] theorem prevOf_skipNext : prevOf (skipNext h q n) = prevOf h := by
  cases q <;> simp [skipNext]

@[simp] theorem nextOf_skipPrev : nextOf (skipPrev h q n) = nextOf h := by
  cases n <;> simp [skipPrev]

theorem frame_skipNext (x : Addr) : Frame (x :: (q.toList ++ n.toList)) h (skipNext h q n) := by
  cases q with
  | none => exact .refl h
  | some p => exact (Frame.refl h).next (by simp) _

theorem frame_skipPrev {h' : Store Addr T} {x : Addr}
    (hf : Frame (x :: (q.toList ++ n.toList)) h h') :
    Frame (x :: (q.toList ++ n.toList)) h (skipPrev h' q n) := by
  cases n with
  | none => exact hf
  | some p => exact hf.prev (by simp) _

/-- The `next` links once `x` is cut out. -/
theorem nextOf_unlinked (hq : ∀ p, q = some p → p ∈ h.dom) :
    Function.update (nextOf (skipNext h q (nextOf h x))) x none = bypass (nextOf h) q x := by
  cases q with
  | none => rfl
  | some p => rw [skipNext, nextOf_withNext (hq p rfl), bypass]

/-- The `prev` links once `x` is cut out. -/
theorem prevOf_unlinked (hn : ∀ p, n = some p → p ∈ h.dom) :
    Function.update (prevOf (skipPrev h (prevOf h x) n)) x none = bypass (prevOf h) n x := by
  cases n with
  | none => rfl
  | some p => rw [skipPrev, prevOf_withPrev (hn p rfl), bypass]

end Skip

/-- What `pop_back` computes on a list whose last node, and the one before it, are live. -/
theorem popBack_eq (ht : l.tail = some x) (hx : x ∈ h.dom)
    (hq : ∀ p, prevOf h x = some p → p ∈ h.dom) :
    l.popBack h = .ok (some x, ⟨if prevOf h x = none then none else l.head, prevOf h x⟩,
      withNext (withPrev (skipNext h (prevOf h x) none) x none) x none) := by
  obtain ⟨head, tail⟩ := l
  obtain rfl : tail = some x := ht
  cases hp : prevOf h x with
  | none =>
    have hx' : x ∈ (withPrev h x none).dom := hx
    simp only [popBack, getPrev_eq hx, hp, ok_bind, pure_eq_ok, setPrev_eq hx, setNext_eq hx',
      skipNext, ↓reduceIte]
  | some p =>
    have hx' : x ∈ (withNext h p none).dom := hx
    have hx'' : x ∈ (withPrev (withNext h p none) x none).dom := hx
    simp only [popBack, getPrev_eq hx, hp, ok_bind, pure_eq_ok, setNext_eq (hq p hp),
      setPrev_eq hx', setNext_eq hx'', skipNext, reduceCtorEq, ↓reduceIte]

/-- **`pop_back`** on a non-empty list removes and returns the last node. -/
theorem popBack_spec (hr : l.Represents h (u ++ [x])) :
    ∃ l' h', l.popBack h = .ok (some x, l', h') ∧ l'.Represents h' u ∧
      Frame (x :: u.getLast?.toList) h h' := by
  have hx : x ∈ h.dom := hr.live x (by simp)
  have htail : l.tail = some x := by simp [hr.tail_eq]
  have hprev : prevOf h x = u.getLast? := hr.linked.prev_eq
  have hnext : nextOf h x = none := by simpa using hr.linked.next_eq
  have hq : ∀ p, prevOf h x = some p → p ∈ h.dom := fun p hp =>
    hr.live p (List.mem_append_left _ (List.mem_of_getLast? (hprev.symm.trans hp)))
  have hx' : x ∈ (skipNext h (prevOf h x) none).dom := by simpa using hx
  have hx'' : x ∈ (withPrev (skipNext h (prevOf h x) none) x none).dom := hx'
  have hframe : Frame (x :: u.getLast?.toList) h
      (withNext (withPrev (skipNext h (prevOf h x) none) x none) x none) := by
    have hs : Frame (x :: ((prevOf h x).toList ++ Option.toList none)) h
        (skipNext h (prevOf h x) none) := frame_skipNext x
    rw [Option.toList_none, List.append_nil] at hs
    rw [← hprev]
    exact (hs.prev (List.mem_cons_self ..) _).next (List.mem_cons_self ..) _
  refine ⟨_, _, popBack_eq htail hx hq, ⟨?_, ?_⟩, hframe⟩
  · have hd := hr.linked.popBack
    rw [nextOf_withNext hx'', prevOf_withNext, prevOf_withPrev hx', nextOf_withPrev,
      prevOf_skipNext]
    have hn := nextOf_unlinked (x := x) hq
    rw [hnext] at hn
    have hhead : (if prevOf h x = none then none else l.head) = if u = [] then none else l.head :=
      ite_congr (by rw [hprev, List.getLast?_eq_none_iff]) (fun _ => rfl) fun _ => rfl
    rw [hn]
    show Linked _ _ (if prevOf h x = none then none else l.head) (prevOf h x) u
    rw [hhead]
    exact hd
  · intro a ha
    rw [hframe.dom_eq]
    exact hr.live a (List.mem_append_left _ ha)

/-- `pop_back` on the empty list returns `None`. -/
theorem popBack_nil (hr : l.Represents h []) : l.popBack h = .ok (none, l, h) := by
  have ht : l.tail = none := by simpa using hr.tail_eq
  rw [popBack, ht]

/-- `last` is the last node of the sequence. -/
theorem last_spec (hr : l.Represents h (u ++ [x])) :
    ∃ t, h.get? x = some t ∧ l.last h = .ok (some (x, t)) := by
  have htail : l.tail = some x := by simp [hr.tail_eq]
  obtain ⟨t, ht⟩ := Store.exists_get?_of_mem (hr.live x (by simp))
  exact ⟨t, ht, by rw [last, htail]; simp [ht]⟩

theorem last_nil (hr : l.Represents h []) : l.last h = .ok none := by
  have ht : l.tail = none := by simpa using hr.tail_eq
  rw [last, ht]

/-- What the second half of `remove` computes when the nodes it touches are live and the checks of
the source succeed. -/
theorem removeNext_eq {q n : Option Addr} (hx : x ∈ h.dom) (hprev : prevOf h x = q)
    (hnext : nextOf h x = n) (hn : ∀ b, n = some b → b ∈ h.dom ∧ b ≠ x ∧ prevOf h b = some x)
    (htail : n = none → l.tail = some x) :
    l.removeNext h x = .ok (some x, ⟨l.head, if n = none then q else l.tail⟩,
      withPrev (withNext (skipPrev h q n) x none) x none) := by
  obtain ⟨head, tail⟩ := l
  cases n with
  | none =>
    obtain rfl : tail = some x := htail rfl
    have hx' : x ∈ (withNext h x none).dom := hx
    simp only [removeNext, getNext_eq hx, hnext, ok_bind, bne_self_eq_false, Bool.false_eq_true,
      getPrev_eq hx, hprev, setNext_eq hx, setPrev_eq hx', pure_eq_ok, skipPrev, ↓reduceIte]
  | some b =>
    obtain ⟨hb, -, hbx⟩ := hn b rfl
    have hx' : x ∈ (withPrev h b q).dom := hx
    have hx'' : x ∈ (withNext (withPrev h b q) x none).dom := hx
    simp only [removeNext, getNext_eq hx, hnext, ok_bind, getPrev_eq hb, hbx, beq_self_eq_true,
      assert_true, getPrev_eq hx, hprev, setPrev_eq hb, setNext_eq hx', setPrev_eq hx'',
      pure_eq_ok, skipPrev, reduceCtorEq, ↓reduceIte]

/-- What `remove` computes on a node whose neighbours are live and point back at it. -/
theorem remove_eq {q n : Option Addr} (hx : x ∈ h.dom) (hprev : prevOf h x = q)
    (hnext : nextOf h x = n)
    (hq : ∀ a, q = some a → a ∈ h.dom ∧ a ≠ x ∧ nextOf h a = some x)
    (hn : ∀ b, n = some b → b ∈ h.dom ∧ b ≠ x ∧ prevOf h b = some x)
    (hhead : q = none → l.head = some x) (htail : n = none → l.tail = some x) :
    l.remove h x = .ok (some x, ⟨if q = none then n else l.head, if n = none then q else l.tail⟩,
      withPrev (withNext (skipPrev (skipNext h q n) q n) x none) x none) := by
  obtain ⟨head, tail⟩ := l
  cases q with
  | none =>
    obtain rfl : head = some x := hhead rfl
    simp only [remove, getPrev_eq hx, hprev, ok_bind, bne_self_eq_false, Bool.false_eq_true,
      getNext_eq hx, hnext, skipNext, ↓reduceIte]
    exact removeNext_eq hx hprev hnext hn htail
  | some p =>
    obtain ⟨hp, hpx, hpn⟩ := hq p rfl
    simp only [remove, getPrev_eq hx, hprev, ok_bind, getNext_eq hp, hpn, beq_self_eq_true,
      assert_true, getNext_eq hx, hnext, setNext_eq hp, skipNext, reduceCtorEq, ↓reduceIte]
    -- the write to `p` leaves the links read afterwards alone
    have hnext' : nextOf (withNext h p n) x = n := by
      rw [nextOf_withNext hp, Function.update_of_ne hpx.symm, hnext]
    exact removeNext_eq (h := withNext h p n) hx (by rw [prevOf_withNext, hprev]) hnext'
      (fun b hb => by rw [prevOf_withNext]; exact hn b hb) htail

/-- **`remove`** deletes a node of the list, wherever it stands, and returns it. -/
theorem remove_spec (hr : l.Represents h (u ++ x :: v)) :
    ∃ l' h', l.remove h x = .ok (some x, l', h') ∧ l'.Represents h' (u ++ v) ∧
      Frame (x :: (u.getLast?.toList ++ v.head?.toList)) h h' := by
  have hnd := List.nodup_append.mp hr.nodup
  have hx : x ∈ h.dom := hr.live x (by simp)
  have hprev : prevOf h x = u.getLast? := hr.linked.prev_eq
  have hnext : nextOf h x = v.head? := hr.linked.next_eq
  have hq : ∀ a, u.getLast? = some a → a ∈ h.dom ∧ a ≠ x ∧ nextOf h a = some x := by
    intro a ha
    obtain ⟨w, rfl⟩ := List.getLast?_eq_some_iff.mp ha
    have hr' : l.Represents h (w ++ a :: x :: v) := by simpa using hr
    refine ⟨hr.live a (by simp), ?_, hr'.linked.next_eq⟩
    exact hnd.2.2 a (by simp) x (List.mem_cons_self ..)
  have hn : ∀ b, v.head? = some b → b ∈ h.dom ∧ b ≠ x ∧ prevOf h b = some x := by
    intro b hb
    obtain ⟨w, rfl⟩ := List.head?_eq_some_iff.mp hb
    have hr' : l.Represents h ((u ++ [x]) ++ b :: w) := by simpa using hr
    refine ⟨hr.live b (by simp), ?_, by simpa using hr'.linked.prev_eq⟩
    rintro rfl
    exact (List.nodup_cons.mp hnd.2.1).1 (List.mem_cons_self ..)
  have hhead : u.getLast? = none → l.head = some x := by
    intro hu
    rw [hr.head_eq, List.getLast?_eq_none_iff.mp hu]
    rfl
  have htail : v.head? = none → l.tail = some x := by
    intro hv
    rw [hr.tail_eq, List.head?_eq_none_iff.mp hv, List.getLast?_concat]
  have hx' : x ∈ (skipPrev (skipNext h u.getLast? v.head?) u.getLast? v.head?).dom := by
    simpa using hx
  have hx'' : x ∈ (withNext (skipPrev (skipNext h u.getLast? v.head?) u.getLast? v.head?)
      x none).dom := hx'
  have hframe := ((frame_skipPrev (frame_skipNext (h := h) (q := u.getLast?) (n := v.head?)
    x)).next (List.mem_cons_self ..) none).prev (List.mem_cons_self ..) none
  refine ⟨_, _, remove_eq hx hprev hnext hq hn hhead htail, ⟨?_, ?_⟩, hframe⟩
  · have hd := hr.linked.remove
    rw [hnext, hprev] at hd
    have hnx : Function.update (nextOf (skipNext h u.getLast? v.head?)) x none
        = bypass (nextOf h) u.getLast? x := by
      rw [← hnext]
      exact nextOf_unlinked fun a ha => (hq a ha).1
    have hpx : Function.update (prevOf (skipPrev (skipNext h u.getLast? v.head?) u.getLast?
        v.head?)) x none = bypass (prevOf h) v.head? x := by
      have hp := prevOf_unlinked (h := skipNext h u.getLast? v.head?) (x := x) (n := v.head?)
        fun a ha => by simpa using (hn a ha).1
      rwa [prevOf_skipNext, hprev] at hp
    rw [nextOf_withPrev, nextOf_withNext hx', nextOf_skipPrev, hnx, prevOf_withPrev hx'',
      prevOf_withNext, hpx]
    simpa using hd
  · intro a ha
    rw [hframe.dom_eq]
    refine hr.live a ?_
    rcases List.mem_append.mp ha with ha | ha
    · exact List.mem_append_left _ ha
    · exact List.mem_append_right _ (List.mem_cons_of_mem _ ha)

/-- `remove` of a live node outside the list returns `None` and changes nothing. -/
theorem remove_outside (hr : l.Represents h xs) (hx : x ∉ xs) (hlive : x ∈ h.dom) :
    l.remove h x = .ok (none, l, h) := by
  have hprev : prevOf h x = none := hr.linked.prev_outside x hx
  have hhead : (l.head != some x) = true := by
    rw [bne_iff_ne, hr.head_eq]
    exact fun hh => hx (List.mem_of_head? hh)
  simp only [remove, getPrev_eq hlive, hprev, ok_bind, hhead, ↓reduceIte, pure_eq_ok]

/-- `is_empty` never fails its assertion and tells whether the sequence is empty. -/
theorem isEmpty_spec (hr : l.Represents h xs) : l.isEmpty = .ok xs.isEmpty := by
  have hhead := hr.head_eq
  have htail := hr.tail_eq
  cases xs with
  | nil =>
    rw [List.head?_nil] at hhead
    rw [List.getLast?_nil] at htail
    rw [isEmpty, hhead, htail]
    rfl
  | cons y ys =>
    rw [List.head?_cons] at hhead
    rw [isEmpty, hhead]
    rfl

end Operations

/-! ### Whatever the pointers are

The operations rewrite pointers and nothing else, also over a memory that is no list. -/

section Payload

variable {l l' : LinkedList} {h h' : Store Addr T} {a : Addr} {v r : Option Addr}

theorem setNext_payload (hres : setNext h a v = .ok h') : SamePayload h h' := by
  unfold setNext at hres
  split at hres
  · obtain rfl := Except.ok.inj hres
    exact samePayload_withNext a v
  · cases hres

theorem setPrev_payload (hres : setPrev h a v = .ok h') : SamePayload h h' := by
  unfold setPrev at hres
  split at hres
  · obtain rfl := Except.ok.inj hres
    exact samePayload_withPrev a v
  · cases hres

theorem popBack_payload (hres : l.popBack h = .ok (r, l', h')) : SamePayload h h' := by
  unfold popBack at hres
  split at hres
  · obtain ⟨-, hres⟩ := Prod.mk.inj (Except.ok.inj hres)
    obtain ⟨-, rfl⟩ := Prod.mk.inj hres
    exact .refl h
  · obtain ⟨tail, -, hres⟩ := bind_eq_ok.mp hres
    obtain ⟨prev, -, hres⟩ := bind_eq_ok.mp hres
    cases prev with
    | some prev =>
      obtain ⟨h₁, h₁eq, hres⟩ := bind_eq_ok.mp hres
      obtain ⟨⟨head, h₁'⟩, hpure, hres⟩ := bind_eq_ok.mp hres
      obtain ⟨-, rfl⟩ := Prod.mk.inj (Except.ok.inj hpure)
      obtain ⟨h₂, h₂eq, hres⟩ := bind_eq_ok.mp hres
      obtain ⟨h₃, h₃eq, hres⟩ := bind_eq_ok.mp hres
      obtain ⟨-, hres⟩ := Prod.mk.inj (Except.ok.inj hres)
      obtain ⟨-, rfl⟩ := Prod.mk.inj hres
      exact ((setNext_payload h₁eq).trans (setPrev_payload h₂eq)).trans (setNext_payload h₃eq)
    | none =>
      obtain ⟨⟨head, h₁⟩, hpure, hres⟩ := bind_eq_ok.mp hres
      obtain ⟨-, rfl⟩ := Prod.mk.inj (Except.ok.inj hpure)
      obtain ⟨h₂, h₂eq, hres⟩ := bind_eq_ok.mp hres
      obtain ⟨h₃, h₃eq, hres⟩ := bind_eq_ok.mp hres
      obtain ⟨-, hres⟩ := Prod.mk.inj (Except.ok.inj hres)
      obtain ⟨-, rfl⟩ := Prod.mk.inj hres
      exact (setPrev_payload h₂eq).trans (setNext_payload h₃eq)

theorem removeNext_payload (hres : l.removeNext h a = .ok (r, l', h')) : SamePayload h h' := by
  unfold removeNext at hres
  obtain ⟨next, -, hres⟩ := bind_eq_ok.mp hres
  split at hres
  · obtain ⟨back, -, hres⟩ := bind_eq_ok.mp hres
    obtain ⟨-, -, hres⟩ := bind_eq_ok.mp hres
    obtain ⟨prev, -, hres⟩ := bind_eq_ok.mp hres
    obtain ⟨h₁, h₁eq, hres⟩ := bind_eq_ok.mp hres
    obtain ⟨h₂, h₂eq, hres⟩ := bind_eq_ok.mp hres
    obtain ⟨h₃, h₃eq, hres⟩ := bind_eq_ok.mp hres
    obtain ⟨-, hres⟩ := Prod.mk.inj (Except.ok.inj hres)
    obtain ⟨-, rfl⟩ := Prod.mk.inj hres
    exact ((setPrev_payload h₁eq).trans (setNext_payload h₂eq)).trans (setPrev_payload h₃eq)
  · split_ifs at hres
    · obtain ⟨-, hres⟩ := Prod.mk.inj (Except.ok.inj hres)
      obtain ⟨-, rfl⟩ := Prod.mk.inj hres
      exact .refl h
    · obtain ⟨tail, -, hres⟩ := bind_eq_ok.mp hres
      obtain ⟨h₂, h₂eq, hres⟩ := bind_eq_ok.mp hres
      obtain ⟨h₃, h₃eq, hres⟩ := bind_eq_ok.mp hres
      obtain ⟨-, hres⟩ := Prod.mk.inj (Except.ok.inj hres)
      obtain ⟨-, rfl⟩ := Prod.mk.inj hres
      exact (setNext_payload h₂eq).trans (setPrev_payload h₃eq)

theorem remove_payload (hres : l.remove h a = .ok (r, l', h')) : SamePayload h h' := by
  unfold remove at hres
  obtain ⟨prev, -, hres⟩ := bind_eq_ok.mp hres
  split at hres
  · obtain ⟨back, -, hres⟩ := bind_eq_ok.mp hres
    obtain ⟨-, -, hres⟩ := bind_eq_ok.mp hres
    obtain ⟨next, -, hres⟩ := bind_eq_ok.mp hres
    obtain ⟨h₁, h₁eq, hres⟩ := bind_eq_ok.mp hres
    exact (setNext_payload h₁eq).trans (removeNext_payload hres)
  · split_ifs at hres
    · obtain ⟨-, hres⟩ := Prod.mk.inj (Except.ok.inj hres)
      obtain ⟨-, rfl⟩ := Prod.mk.inj hres
      exact .refl h
    · obtain ⟨head, -, hres⟩ := bind_eq_ok.mp hres
      exact removeNext_payload hres

end Payload

end LinkedList

end LocalSync
