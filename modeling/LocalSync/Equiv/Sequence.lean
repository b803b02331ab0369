/-
  Any number of calls on the linked list.

  `Sequence` is what the list is for: a sequence of nodes without duplicates,
  which grows at its front and shrinks anywhere.  A call is allowed when its
  node is live and, for `push_front`, not in the sequence yet; that a node
  outside the sequence has both links `None` is then a consequence, from the
  first call on.

  One call on a list that is a sequence answers what the sequence answers, and
  writes only next to the node that it links or unlinks (`exec_spec`).  So every
  sequence of allowed calls on an empty list is one on the empty sequence
  (`refines_sequence`).
-/
import LocalSync.Equiv.LinkedList
import LocalSync.Lib.Run

namespace LocalSync.LinkedList

open Lib

/-! ### The sequence -/

namespace Sequence

/-- What a call answers, and the sequence after it. -/
def exec (xs : List Addr) : Action → Answer × List Addr
  | .pushFront x => (.unit, x :: xs)
  | .popBack => (.node xs.getLast?, xs.dropLast)
  | .remove x => (.node (if x ∈ xs then some x else none), xs.erase x)
  | .last => (.node xs.getLast?, xs)
  | .isEmpty => (.flag xs.isEmpty, xs)

/-- The calls that callers may make while the nodes in `live` exist. -/
def Allowed (live : Finset Addr) (xs : List Addr) : Action → Prop
  | .pushFront x => x ∈ live ∧ x ∉ xs
  | .remove x => x ∈ live
  | _ => True

/-- One call. -/
def Step (live : Finset Addr) (xs : List Addr) (e : Action × Answer) (ys : List Addr) : Prop :=
  Allowed live xs e.1 ∧ exec xs e.1 = (e.2, ys)

/-- The node `a` is the node `x`, or next to it. -/
def Near (xs : List Addr) (x a : Addr) : Prop := a = x ∨ [a, x] <:+: xs ∨ [x, a] <:+: xs

/-- The nodes whose links a call may write: the node that it links or unlinks, and those next to
it. -/
def Touches (xs : List Addr) : Action → Addr → Prop
  | .pushFront x, a => Near (x :: xs) x a
  | .popBack, a => ∃ x, xs.getLast? = some x ∧ Near xs x a
  | .remove x, a => x ∈ xs ∧ Near xs x a
  | .last, _ => False
  | .isEmpty, _ => False

instance (live : Finset Addr) (xs : List Addr) : (c : Action) → Decidable (Allowed live xs c)
  | .pushFront x => inferInstanceAs (Decidable (x ∈ live ∧ x ∉ xs))
  | .popBack => inferInstanceAs (Decidable True)
  | .remove x => inferInstanceAs (Decidable (x ∈ live))
  | .last => inferInstanceAs (Decidable True)
  | .isEmpty => inferInstanceAs (Decidable True)

/-- Make a call, if it is allowed. -/
def call (live : Finset Addr) (xs : List Addr) (c : Action) : Option (Answer × List Addr) :=
  if Allowed live xs c then some (exec xs c) else none

theorem step_of_call {live : Finset Addr} (xs : List Addr) (c : Action) (o : Answer)
    (ys : List Addr) (h : call live xs c = some (o, ys)) : Step live xs (c, o) ys := by
  unfold call at h
  split_ifs at h with hc
  exact ⟨hc, Option.some.inj h⟩

variable {u v : List Addr} {x a : Addr}

theorem exec_popBack_concat (u : List Addr) (x : Addr) :
    exec (u ++ [x]) .popBack = (.node (some x), u) := by
  rw [exec, List.getLast?_concat, List.dropLast_concat]

theorem exec_remove_append (hx : x ∉ u) (v : List Addr) :
    exec (u ++ x :: v) (.remove x) = (.node (some x), u ++ v) := by
  have hmem : x ∈ u ++ x :: v := List.mem_append_right u (List.mem_cons_self ..)
  rw [exec, if_pos hmem, List.erase_append_right _ hx, List.erase_cons_head]

theorem exec_remove_of_not_mem {xs : List Addr} (hx : x ∉ xs) :
    exec xs (.remove x) = (.node none, xs) := by
  rw [exec, if_neg hx, List.erase_of_not_mem hx]

/-- The nodes that an operation on `x` writes are near it. -/
theorem near_of_mem (ha : a ∈ x :: (u.getLast?.toList ++ v.head?.toList)) :
    Near (u ++ x :: v) x a := by
  rcases List.mem_cons.mp ha with rfl | ha
  · exact Or.inl rfl
  rcases List.mem_append.mp ha with ha | ha
  · obtain ⟨w, rfl⟩ := List.getLast?_eq_some_iff.mp (Option.mem_toList.mp ha)
    exact Or.inr (Or.inl ⟨w, v, by simp⟩)
  · obtain ⟨w, rfl⟩ := List.head?_eq_some_iff.mp (Option.mem_toList.mp ha)
    exact Or.inr (Or.inr ⟨u, w, by simp⟩)

end Sequence

variable {T : Type} [Link T]

/-! ### One call -/

/-- What a call on the sequence `xs` may change in memory. -/
structure Changes (xs : List Addr) (c : Action) (s t : State T) : Prop where
  /-- The nodes that are not near the change are as they were, links included. -/
  untouched : ∀ a, ¬ Sequence.Touches xs c a → t.heap.get? a = s.heap.get? a
  /-- Only links are written. -/
  payload : SamePayload s.heap t.heap
  /-- A call that leaves the sequence alone changes nothing. -/
  unchanged : (Sequence.exec xs c).2 = xs → t = s

variable {s : State T} {xs : List Addr}

theorem Changes.refl (xs : List Addr) (c : Action) (s : State T) : Changes xs c s s :=
  ⟨fun _ _ => rfl, .refl s.heap, fun _ => rfl⟩

/-- **One call** on a list that is the sequence `xs` does not fail, and answers what the sequence
answers. -/
theorem exec_spec (hs : s.list.Represents s.heap xs) {c : Action}
    (hc : Sequence.Allowed s.heap.dom xs c) :
    ∃ t : State T, s.exec c = .ok ((Sequence.exec xs c).1, t) ∧
      t.list.Represents t.heap (Sequence.exec xs c).2 ∧ Changes xs c s t := by
  cases c with
  | pushFront x =>
    obtain ⟨hlive, hx⟩ := hc
    obtain ⟨l', h', hpush, hrep, hframe⟩ := pushFront_spec hs hx hlive
    refine ⟨⟨l', h'⟩, ?_, hrep, ?_, hframe.payload, fun hxs => ?_⟩
    · rw [State.exec, hpush]
      rfl
    · exact fun a ha => hframe.untouched a fun hm =>
        ha (Sequence.near_of_mem (u := []) hm)
    · exact absurd hxs (List.cons_ne_self x xs)
  | popBack =>
    rcases List.eq_nil_or_concat xs with rfl | ⟨u, x, rfl⟩
    · refine ⟨s, ?_, hs, .refl _ _ s⟩
      rw [State.exec, popBack_nil hs]
      rfl
    · rw [List.concat_eq_append] at hs ⊢
      obtain ⟨l', h', hpop, hrep, hframe⟩ := popBack_spec hs
      have hexec := Sequence.exec_popBack_concat u x
      rw [hexec]
      refine ⟨⟨l', h'⟩, ?_, hrep, fun a ha => ?_, hframe.payload, fun hxs => ?_⟩
      · rw [State.exec, hpop]
        rfl
      · refine hframe.untouched a fun hm => ha ⟨x, List.getLast?_concat, ?_⟩
        refine Sequence.near_of_mem (v := []) ?_
        rwa [List.head?_nil, Option.toList_none, List.append_nil]
      · rw [hexec] at hxs
        exact absurd (List.self_eq_append_right.mp hxs) (List.cons_ne_nil x [])
  | remove x =>
    by_cases hx : x ∈ xs
    · obtain ⟨u, v, rfl⟩ := List.append_of_mem hx
      obtain ⟨l', h', hremove, hrep, hframe⟩ := remove_spec hs
      have hxu : x ∉ u := fun hm =>
        (List.nodup_append.mp hs.nodup).2.2 x hm x (List.mem_cons_self ..) rfl
      have hexec := Sequence.exec_remove_append hxu v
      rw [hexec]
      refine ⟨⟨l', h'⟩, ?_, hrep, fun a ha => ?_, hframe.payload, fun hxs => ?_⟩
      · rw [State.exec, hremove]
        rfl
      · exact hframe.untouched a fun hm => ha ⟨hx, Sequence.near_of_mem hm⟩
      · rw [hexec] at hxs
        have hlen := congrArg List.length hxs
        rw [List.length_append, List.length_append, List.length_cons] at hlen
        omega
    · rw [Sequence.exec_remove_of_not_mem hx]
      refine ⟨s, ?_, hs, .refl _ _ s⟩
      rw [State.exec, remove_outside hs hx hc]
      rfl
  | last =>
    refine ⟨s, ?_, hs, .refl _ _ s⟩
    rcases List.eq_nil_or_concat xs with rfl | ⟨u, x, rfl⟩
    · rw [State.exec, last_nil hs]
      rfl
    · rw [List.concat_eq_append] at hs ⊢
      obtain ⟨t, -, hlast⟩ := last_spec hs
      rw [State.exec, hlast, Sequence.exec, List.getLast?_concat]
      rfl
  | isEmpty =>
    refine ⟨s, ?_, hs, .refl _ _ s⟩
    rw [State.exec, isEmpty_spec hs]
    rfl

/-! ### Runs -/

/-- **What holds of the list between two calls**, when it is the sequence `xs`. -/
structure State.IsSequence (s : State T) (xs : List Addr) : Prop where
  nodup : xs.Nodup
  /-- The `next` links lead from the head through the sequence. -/
  forward : Chain (nextOf s.heap) s.list.head xs none
  /-- The `prev` links lead from the tail through it in the opposite direction. -/
  backward : Chain (prevOf s.heap) s.list.tail xs.reverse none
  head_eq_none : s.list.head = none ↔ xs = []
  tail_eq_none : s.list.tail = none ↔ xs = []
  /-- The nodes of the sequence are live. -/
  live : ∀ x ∈ xs, x ∈ s.heap.dom
  /-- Every other node has both links `None`. -/
  outside : ∀ x ∉ xs, ∀ t, s.heap.get? x = some t → Link.pointers t = Pointers.new
  /-- The next call does not fail, and answers what the sequence answers. -/
  call : ∀ c, Sequence.Allowed s.heap.dom xs c →
    ∃ t : State T, s.exec c = .ok ((Sequence.exec xs c).1, t) ∧ Changes xs c s t

theorem Represents.isSequence (hs : s.list.Represents s.heap xs) : s.IsSequence xs where
  nodup := hs.nodup
  forward := hs.linked.forward
  backward := hs.linked.backward
  head_eq_none := by rw [hs.head_eq, List.head?_eq_none_iff]
  tail_eq_none := by rw [hs.tail_eq, List.getLast?_eq_none_iff]
  live := hs.live
  outside _ hx _ ht := hs.pointers_outside hx ht
  call _ hc := by
    obtain ⟨t, hres, -, hchanges⟩ := exec_spec hs hc
    exact ⟨t, hres, hchanges⟩

/-- A new list over nodes that are in no list. -/
theorem new_represents_of_unlinked {h : Store Addr T}
    (hnew : ∀ x t, h.get? x = some t → Link.pointers t = Pointers.new) :
    new.Represents h [] := by
  have hnone : nextOf h = (fun _ => none) ∧ prevOf h = (fun _ => none) := by
    constructor <;> funext x <;> cases hx : h.get? x with
    | none => simp [nextOf, prevOf, hx]
    | some t => simp [nextOf, prevOf, hx, hnew x t hx, Pointers.new]
  refine ⟨?_, fun _ hx => absurd hx List.not_mem_nil⟩
  rw [hnone.1, hnone.2]
  exact Linked.nil

/-- **The list refines a sequence.** Every sequence of allowed calls on an empty list runs without
a failed assertion, with the answers of the sequence, and leaves the list that the sequence has
become. -/
theorem refines_sequence {h : Store Addr T}
    (hnew : ∀ x t, h.get? x = some t → Link.pointers t = Pointers.new)
    {es : List (Action × Answer)} (hrun : Run (Sequence.Step h.dom) [] es xs) :
    ∃ s : State T, Run State.Step { list := new, heap := h } es s ∧ s.IsSequence xs := by
  let s₀ : State T := { list := new, heap := h }
  have hs₀ : s₀.list.Represents s₀.heap [] ∧ s₀.heap.dom = h.dom :=
    ⟨new_represents_of_unlinked hnew, rfl⟩
  have hstep : ∀ (xs : List Addr) (e : Action × Answer) (ys : List Addr) (s : State T),
      s.list.Represents s.heap xs ∧ s.heap.dom = h.dom → Sequence.Step h.dom xs e ys →
        ∃ t, s.Step e t ∧ t.list.Represents t.heap ys ∧ t.heap.dom = h.dom := by
    rintro xs e ys s ⟨hs, hdom⟩ ⟨hc, hexec⟩
    obtain ⟨t, hres, hrep, hchanges⟩ := exec_spec hs (hdom ▸ hc)
    rw [hexec] at hres hrep
    exact ⟨t, hres, hrep, hchanges.payload.dom_eq.trans hdom⟩
  obtain ⟨s, hsteps, hrep, -⟩ := hrun.simulate hstep hs₀
  exact ⟨s, hsteps, hrep.isSequence⟩

/-- The nodes of the tests: links, and a value. -/
structure Entry where
  pointers : Pointers
  val : Int32

instance : Link Entry where
  pointers := Entry.pointers
  setPointers e pointers := { e with pointers }
  pointers_setPointers _ _ := rfl

/-- Three nodes in no list. -/
def entries : Store Addr Entry :=
  ((Store.empty.insert 1 ⟨Pointers.new, 5⟩).insert 2 ⟨Pointers.new, 7⟩).insert 3 ⟨Pointers.new, 31⟩

/-- Three nodes are linked in, the middle one is removed, twice, and the oldest one is popped. -/
theorem refines_sequence_three : ∃ es, ∃ s : State Entry,
    Run State.Step { list := new, heap := entries } es s ∧ s.IsSequence [3] ∧
      es.map Prod.fst = [.pushFront 1, .pushFront 2, .pushFront 3, .isEmpty, .remove 2, .remove 2,
        .last, .popBack] := by
  have hnew : ∀ x t, entries.get? x = some t → Link.pointers t = Pointers.new := by
    intro x t ht
    rw [entries, Store.get?_insert, Store.get?_insert, Store.get?_insert] at ht
    split_ifs at ht
    · exact Option.some.inj ht ▸ rfl
    · exact Option.some.inj ht ▸ rfl
    · exact Option.some.inj ht ▸ rfl
    · cases ht
  have hreplay : replay (Sequence.call entries.dom) [] [.pushFront 1, .pushFront 2, .pushFront 3,
      .isEmpty, .remove 2, .remove 2, .last, .popBack] = some (_, [3]) := rfl
  obtain ⟨s, hrun, hs⟩ := refines_sequence hnew (run_of_replay Sequence.step_of_call hreplay)
  exact ⟨_, s, hrun, hs, rfl⟩

end LocalSync.LinkedList
