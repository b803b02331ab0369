/-
  The block queue of `mpsc/block.rs`: an unbounded queue in a chain of blocks
  of 32 slots, written at the tail block and read at the head block.

  A slot is an `Option`: `none` stands for `MaybeUninit::uninit()`, and reading
  it is a fault of its own.  The blocks live in a store; an allocation takes a
  free address.  A queue that has been freed points to no block.  The
  `debug_assert`s are checked, as in a debug build.
-/
import LocalSync.Lib.Store
import LocalSync.Basic

namespace LocalSync.Mpsc

open Lib

/-- `BLOCK_CAP`. -/
def blockCap : ℕ := 32

/-- `Block`. -/
structure Block (T : Type) where
  /-- The next block in the linked list. -/
  next : Option Addr
  /-- The values pushed into the block. -/
  values : Vector (Option T) blockCap
  /-- Head index. -/
  beginIndex : ℕ
  /-- Tail index. -/
  endIndex : ℕ

namespace Block

variable {T : Type}

/-- `Block::new`. -/
def new : Block T :=
  { next := none, values := Vector.replicate blockCap none, beginIndex := 0, endIndex := 0 }

/-- `Block::is_empty`. -/
def isEmpty (b : Block T) : Bool := b.endIndex == b.beginIndex

/-- `Block::can_write`. -/
def canWrite (b : Block T) : Bool := b.endIndex < blockCap

/-- `Block::reset`. -/
def reset (b : Block T) : Block T := { b with next := none, beginIndex := 0, endIndex := 0 }

/-- The value in slot `k`, if there is one. -/
def slot (b : Block T) (k : ℕ) : Option T := b.values[k]?.join

/-- `(*blk.values.get())[offset] = value`. -/
def write (b : Block T) (offset : ℕ) (value : Option T) : Except Fault (Block T) :=
  if h : offset < blockCap then .ok { b with values := b.values.set offset value h }
  else .error (.panic "index out of bounds")

/-- `mem::replace(&mut (*blk.values.get())[offset], MaybeUninit::uninit())`. -/
def take (b : Block T) (offset : ℕ) : Except Fault (Option T × Block T) :=
  if h : offset < blockCap then
    .ok (b.values[offset], { b with values := b.values.set offset none h })
  else .error (.panic "index out of bounds")

end Block

/-- `Queue`, with the memory of its blocks. -/
structure Queue (T : Type) where
  /-- The block to read data from. -/
  head : Addr
  /-- The block to write data to. -/
  tail : Addr
  /-- Data length. -/
  len : ℕ
  /-- The blocks that are allocated. -/
  blocks : Store Addr (Block T)

namespace Queue

variable {T : Type}

/-- `NonNull::dangling()`: no block is ever allocated here. -/
def dangling : Addr := 0

/-- The block at `a`. -/
def deref (q : Queue T) (a : Addr) : Except Fault (Block T) :=
  match q.blocks.get? a with
  | some b => .ok b
  | none => .error .dangling

/-- Write back the block at `a`. -/
def store (q : Queue T) (a : Addr) (b : Block T) : Queue T :=
  { q with blocks := q.blocks.insert a b }

/-- `Box::new(Block::new())`: the address of the new block. -/
def alloc (q : Queue T) : Addr × Queue T := (q.blocks.fresh, q.store q.blocks.fresh Block.new)

/-- `Queue::new`. -/
def new : Queue T :=
  let (ptr, q) := alloc { head := dangling, tail := dangling, len := 0, blocks := Store.empty }
  { q with head := ptr, tail := ptr }

/-- `Queue::is_empty`. -/
def isEmpty (q : Queue T) : Bool := q.len == 0

/-- `Queue::push_unchecked`. -/
def pushUnchecked (q : Queue T) (value : T) : Except Fault (Queue T) := do
  -- Write data and update block end index
  let blk ← q.deref q.tail
  let offset := blk.endIndex
  let blk := { blk with endIndex := blk.endIndex + 1 }
  let blk ← blk.write offset (some value)
  let q := q.store q.tail blk
  -- Update queue length and make sure tail point to a valid block (not full)
  let q := { q with len := q.len + 1 }
  if !blk.canWrite then
    match blk.next with
    | some ptr => pure { q with tail := ptr }
    | none =>
      let (ptr, q) := q.alloc
      pure { q.store q.tail { blk with next := some ptr } with tail := ptr }
  else pure q

/-- `Queue::pop_unchecked`. -/
def popUnchecked (q : Queue T) : Except Fault (T × Queue T) := do
  -- Read data and update block read index
  let a := q.head
  let blk ← q.deref a
  assert (!blk.isEmpty) "head block is empty while pop_unchecked"
  let offset := blk.beginIndex
  let blk := { blk with beginIndex := blk.beginIndex + 1 }
  let (value, blk) ← blk.take offset
  let q := q.store a blk
  -- Update queue length and try to recycle the head block if it is empty
  assert (q.len != 0) "attempt to subtract with overflow"
  let q := { q with len := q.len - 1 }
  let q ← if blk.beginIndex = blockCap then
      match blk.next with
      | none => .error (.panic "no next block while pop_unchecked")
      | some head => do
        let q := { q with head }
        -- Move block to the tail and reset it
        let tail ← q.deref q.tail
        let freeBlocks := tail.next
        let q := q.store a { blk.reset with next := freeBlocks }
        let tail ← q.deref q.tail
        pure (q.store q.tail { tail with next := some a })
    else pure q
  match value with
  | some value => pure (value, q)
  | none => .error .uninit

/-- The loop of `free_blocks`. -/
def freeLoop : ℕ → Queue T → Option Addr → Except Fault (Queue T)
  | 0, _, _ => .error .diverges
  | _ + 1, q, none => .ok q
  | fuel + 1, q, some a => do
    let blk ← q.deref a
    freeLoop fuel { q with blocks := q.blocks.erase a } blk.next

/-- The blocks that this loop frees, in this order. -/
def freed : ℕ → Queue T → Option Addr → List Addr
  | 0, _, _ => []
  | _ + 1, _, none => []
  | fuel + 1, q, some a =>
    match q.deref a with
    | .ok blk => a :: freed fuel { q with blocks := q.blocks.erase a } blk.next
    | .error _ => []

/-- `Queue::free_blocks`. -/
def freeBlocks (q : Queue T) : Except Fault (Queue T) := do
  assert (q.head != dangling) "assertion `left != right` failed"
  freeLoop (q.blocks.dom.card + 1) { q with head := dangling } (some q.head)

/-- The blocks that `free_blocks` frees. -/
def freedBlocks (q : Queue T) : List Addr :=
  freed (q.blocks.dom.card + 1) { q with head := dangling } (some q.head)

end Queue

/-! ### The queue as a transition system -/

/-- A call on the queue. -/
inductive Queue.Action (T : Type) where
  | push (value : T)
  | pop

/-- The queue, with what has gone in and come out so far. -/
structure Queue.Log (T : Type) where
  queue : Queue T
  pushed : List T
  popped : List T

namespace Queue.Log

variable {T : Type}

/-- The new queue. -/
def new : Log T := { queue := Queue.new, pushed := [], popped := [] }

/-- Perform a call and note the value. -/
def exec (s : Log T) : Action T → Except Fault (Log T)
  | .push value => do
    let queue ← s.queue.pushUnchecked value
    pure { s with queue, pushed := s.pushed ++ [value] }
  | .pop => do
    let (value, queue) ← s.queue.popUnchecked
    pure { s with queue, popped := s.popped ++ [value] }

/-- What the safety comments ask of the caller: there is something to pop. -/
def Allowed (s : Log T) : Action T → Prop
  | .push _ => True
  | .pop => 0 < s.queue.len

/-- One call. -/
def Step (s : Log T) (c : Action T) (t : Log T) : Prop := s.Allowed c ∧ s.exec c = .ok t

instance (s : Log T) (c : Action T) : Decidable (s.Allowed c) := by
  cases c <;> unfold Allowed <;> infer_instance

end Queue.Log

end LocalSync.Mpsc
