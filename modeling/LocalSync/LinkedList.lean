/-
  The intrusive doubly-linked list of `linked_list.rs`.

  The nodes live in a store and carry their own `prev`/`next` pointers; the
  list itself is a pair of end pointers.  Every access goes through the store
  and faults on a freed node, and the assertions of the source are faults too.

  The links are also read off as functions `nextOf` and `prevOf`, the form in
  which the theory of chains speaks about them: writing a link is an update of
  one of the two functions and leaves the other alone.
-/
import LocalSync.Basic
import LocalSync.Lib.Store
import LocalSync.Lib.Chain

namespace LocalSync

open Lib

/-- `linked_list::Pointers`: the links embedded in a node. -/
structure Pointers where
  prev : Option Addr
  next : Option Addr
  deriving DecidableEq, Repr

/-- `Pointers::new`. -/
def Pointers.new : Pointers := ⟨none, none⟩

/-- `trait Link`: a node type with embedded pointers. -/
class Link (T : Type) where
  /-- The pointers of a node. -/
  pointers : T → Pointers
  /-- The node with its pointers replaced. -/
  setPointers : T → Pointers → T
  pointers_setPointers : ∀ t p, pointers (setPointers t p) = p

attribute [simp] Link.pointers_setPointers

/-- `LinkedList`: the two ends of the list. -/
structure LinkedList where
  head : Option Addr
  tail : Option Addr
  deriving DecidableEq, Repr

namespace LinkedList

variable {T : Type} [Link T]

/-! ### The operations -/

/-- `L::pointers(a).get_prev()`. -/
def getPrev (h : Store Addr T) (a : Addr) : Except Fault (Option Addr) :=
  match h.get? a with
  | some t => .ok (Link.pointers t).prev
  | none => .error .dangling

/-- `L::pointers(a).get_next()`. -/
def getNext (h : Store Addr T) (a : Addr) : Except Fault (Option Addr) :=
  match h.get? a with
  | some t => .ok (Link.pointers t).next
  | none => .error .dangling

/-- The memory with the `prev` pointer of the node at `a` replaced. -/
def withPrev (h : Store Addr T) (a : Addr) (value : Option Addr) : Store Addr T :=
  h.modify a fun t => Link.setPointers t { Link.pointers t with prev := value }

/-- The memory with the `next` pointer of the node at `a` replaced. -/
def withNext (h : Store Addr T) (a : Addr) (value : Option Addr) : Store Addr T :=
  h.modify a fun t => Link.setPointers t { Link.pointers t with next := value }

/-- `L::pointers(a).set_prev(value)`. -/
def setPrev (h : Store Addr T) (a : Addr) (value : Option Addr) : Except Fault (Store Addr T) :=
  match h.get? a with
  | some _ => .ok (withPrev h a value)
  | none => .error .dangling

/-- `L::pointers(a).set_next(value)`. -/
def setNext (h : Store Addr T) (a : Addr) (value : Option Addr) : Except Fault (Store Addr T) :=
  match h.get? a with
  | some _ => .ok (withNext h a value)
  | none => .error .dangling

/-- `LinkedList::new`. -/
def new : LinkedList := ⟨none, none⟩

/-- `LinkedList::push_front`. -/
def pushFront (l : LinkedList) (h : Store Addr T) (val : Addr) :
    Except Fault (LinkedList × Store Addr T) := do
  assert (l.head != some val) "assertion `left != right` failed"
  let h ← setNext h val l.head
  let h ← setPrev h val none
  let h ← match l.head with
    | some head => setPrev h head (some val)
    | none => pure h
  pure ({ head := some val, tail := if l.tail.isNone then some val else l.tail }, h)

/-- `LinkedList::pop_back`. -/
def popBack (l : LinkedList) (h : Store Addr T) :
    Except Fault (Option Addr × LinkedList × Store Addr T) :=
  match l.tail with
  | none => .ok (none, l, h)
  | some last => do
    let tail ← getPrev h last
    let (head, h) ← match ← getPrev h last with
      | some prev => do
        let h ← setNext h prev none
        pure (l.head, h)
      | none => pure (none, h)
    let h ← setPrev h last none
    let h ← setNext h last none
    pure (some last, { head, tail }, h)

/-- `LinkedList::is_empty`. -/
def isEmpty (l : LinkedList) : Except Fault Bool :=
  if l.head.isSome then .ok false
  else do
    assert l.tail.isNone "assertion failed: self.tail.is_none()"
    pure true

/-- The second half of `LinkedList::remove`, from the link to the next node on. -/
def removeNext (l : LinkedList) (h : Store Addr T) (node : Addr) :
    Except Fault (Option Addr × LinkedList × Store Addr T) := do
  match ← getNext h node with
  | some next => do
    assert ((← getPrev h next) == some node) "assertion `left == right` failed"
    let h ← setPrev h next (← getPrev h node)
    let h ← setNext h node none
    let h ← setPrev h node none
    pure (some node, l, h)
  | none =>
    -- This might be the last item in the list.
    if l.tail != some node then pure (none, l, h)
    else do
      let tail ← getPrev h node
      let h ← setNext h node none
      let h ← setPrev h node none
      pure (some node, { l with tail }, h)

/-- `LinkedList::remove`. -/
def remove (l : LinkedList) (h : Store Addr T) (node : Addr) :
    Except Fault (Option Addr × LinkedList × Store Addr T) := do
  match ← getPrev h node with
  | some prev => do
    assert ((← getNext h prev) == some node) "assertion `left == right` failed"
    let h ← setNext h prev (← getNext h node)
    removeNext l h node
  | none =>
    if l.head != some node then pure (none, l, h)
    else do
      let head ← getNext h node
      removeNext { l with head } h node

/-- `LinkedList::last`: the last node, by reference. -/
def last (l : LinkedList) (h : Store Addr T) : Except Fault (Option (Addr × T)) :=
  match l.tail with
  | none => .ok none
  | some a =>
    match h.get? a with
    | some t => .ok (some (a, t))
    | none => .error .dangling

/-! ### The list as a transition system -/

/-- A call on the list. -/
inductive Action where
  | pushFront (val : Addr)
  | popBack
  | remove (node : Addr)
  | last
  | isEmpty

/-- What a call returns; a node is named by its address. -/
inductive Answer where
  | unit
  | node (node : Option Addr)
  | flag (value : Bool)

/-- A list, with the memory of the nodes. -/
structure State (T : Type) where
  list : LinkedList
  heap : Store Addr T

/-- Run one call. -/
def State.exec (s : State T) : Action → Except Fault (Answer × State T)
  | .pushFront val => do
    let (list, heap) ← s.list.pushFront s.heap val
    pure (.unit, { list, heap })
  | .popBack => do
    let (node, list, heap) ← s.list.popBack s.heap
    pure (.node node, { list, heap })
  | .remove node => do
    let (node, list, heap) ← s.list.remove s.heap node
    pure (.node node, { list, heap })
  | .last => do
    let last ← s.list.last s.heap
    pure (.node (last.map Prod.fst), s)
  | .isEmpty => do
    let value ← s.list.isEmpty
    pure (.flag value, s)

/-- One call. -/
def State.Step (s : State T) (e : Action × Answer) (t : State T) : Prop :=
  s.exec e.1 = .ok (e.2, t)

/-! ### Links as functions -/

/-- The `next` pointer of a node, `none` off the heap. -/
def nextOf (h : Store Addr T) (a : Addr) : Option Addr :=
  (h.get? a).bind fun t => (Link.pointers t).next

/-- The `prev` pointer of a node, `none` off the heap. -/
def prevOf (h : Store Addr T) (a : Addr) : Option Addr :=
  (h.get? a).bind fun t => (Link.pointers t).prev

section Links

variable {h : Store Addr T} {a b : Addr}

theorem getNext_eq (ha : a ∈ h.dom) : getNext h a = .ok (nextOf h a) := by
  obtain ⟨t, ht⟩ := Store.exists_get?_of_mem ha
  simp [getNext, nextOf, ht]

theorem getPrev_eq (ha : a ∈ h.dom) : getPrev h a = .ok (prevOf h a) := by
  obtain ⟨t, ht⟩ := Store.exists_get?_of_mem ha
  simp [getPrev, prevOf, ht]

theorem setNext_eq (ha : a ∈ h.dom) (v : Option Addr) : setNext h a v = .ok (withNext h a v) := by
  obtain ⟨t, ht⟩ := Store.exists_get?_of_mem ha
  simp [setNext, ht]

theorem setPrev_eq (ha : a ∈ h.dom) (v : Option Addr) : setPrev h a v = .ok (withPrev h a v) := by
  obtain ⟨t, ht⟩ := Store.exists_get?_of_mem ha
  simp [setPrev, ht]

@[simp] theorem prevOf_withNext (v : Option Addr) : prevOf (withNext h a v) = prevOf h := by
  funext b
  by_cases hb : b = a
  · subst hb
    cases hg : h.get? b <;> simp [prevOf, withNext, hg]
  · simp [prevOf, withNext, Store.get?_modify_of_ne _ _ hb]

@[simp] theorem nextOf_withPrev (v : Option Addr) : nextOf (withPrev h a v) = nextOf h := by
  funext b
  by_cases hb : b = a
  · subst hb
    cases hg : h.get? b <;> simp [nextOf, withPrev, hg]
  · simp [nextOf, withPrev, Store.get?_modify_of_ne _ _ hb]

theorem nextOf_withNext (ha : a ∈ h.dom) (v : Option Addr) :
    nextOf (withNext h a v) = Function.update (nextOf h) a v := by
  obtain ⟨t, ht⟩ := Store.exists_get?_of_mem ha
  funext b
  by_cases hb : b = a
  · subst hb
    simp [nextOf, withNext, ht]
  · simp [nextOf, withNext, Store.get?_modify_of_ne _ _ hb, hb]

theorem prevOf_withPrev (ha : a ∈ h.dom) (v : Option Addr) :
    prevOf (withPrev h a v) = Function.update (prevOf h) a v := by
  obtain ⟨t, ht⟩ := Store.exists_get?_of_mem ha
  funext b
  by_cases hb : b = a
  · subst hb
    simp [prevOf, withPrev, ht]
  · simp [prevOf, withPrev, Store.get?_modify_of_ne _ _ hb, hb]

end Links

end LinkedList

end LocalSync
