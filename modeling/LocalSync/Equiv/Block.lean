/-
  The block queue refines a queue of values.

  `Layout q addrs o xs` describes the whole memory of the queue `q` that holds
  the values `xs`: following the `next` links from `head` visits exactly the
  allocated blocks `addrs`, and `o` values of the head block have been read.
  Value `i` of `xs` lies at position `o + i` of the chain, that is in slot
  `(o + i) % 32` of block `(o + i) / 32`; this one formula fixes the indices of
  every block, the spare blocks behind the tail included, whose range is empty.

  `pushUnchecked_spec` and `popUnchecked_spec` show that neither operation can
  fail and what each does to `xs`.  The runs of the queue follow by induction.
-/
import LocalSync.Lib.Chain
import LocalSync.Lib.Run
import LocalSync.Mpsc.Block

namespace LocalSync.Mpsc

open Lib

variable {T : Type}

/-! ### Slots -/

namespace Block

variable {b b' : Block T} {k offset : ℕ} {v : Option T}

theorem write_eq (h : offset < blockCap) (b : Block T) (v : Option T) :
    ∃ b', b.write offset v = .ok b' ∧ b'.next = b.next ∧ b'.beginIndex = b.beginIndex ∧
      b'.endIndex = b.endIndex ∧ ∀ k, b'.slot k = if k = offset then v else b.slot k := by
  refine ⟨{ b with values := b.values.set offset v h }, dif_pos h, rfl, rfl, rfl, fun k => ?_⟩
  unfold slot
  rw [Vector.getElem?_set]
  by_cases hk : offset = k
  · subst hk
    simp
  · simp [hk, Ne.symm hk]

theorem take_eq (h : offset < blockCap) (b : Block T) :
    ∃ b', b.take offset = .ok (b.slot offset, b') ∧ b'.next = b.next ∧
      b'.beginIndex = b.beginIndex ∧ b'.endIndex = b.endIndex ∧
      ∀ k, k ≠ offset → b'.slot k = b.slot k := by
  refine ⟨{ b with values := b.values.set offset none h }, ?_, rfl, rfl, rfl, fun k hk => ?_⟩
  · unfold take slot
    simp [h]
  · unfold slot
    simp [Ne.symm hk]

/-- Block `j` of a chain that holds the values `xs` from position `o` on. -/
structure At (b : Block T) (o j : ℕ) (xs : List T) : Prop where
  beginIndex : b.beginIndex = if j = 0 then o else 0
  endIndex : b.endIndex = min blockCap (o + xs.length - blockCap * j)
  /-- The value of `xs` at slot `k` of this block. -/
  slots : ∀ k < blockCap, o ≤ blockCap * j + k → ∀ x, xs[blockCap * j + k - o]? = some x →
    b.slot k = some x

end Block

namespace Queue

/-- The links of the blocks. -/
def nextOf (s : Store Addr (Block T)) (a : Addr) : Option Addr := (s.get? a).bind Block.next

theorem nextOf_insert (s : Store Addr (Block T)) (a : Addr) (b : Block T) :
    nextOf (s.insert a b) = Function.update (nextOf s) a b.next := by
  funext c
  by_cases hc : c = a
  · subst hc
    simp [nextOf]
  · simp [nextOf, Store.get?_insert_of_ne _ _ hc, hc]

/-- Writing over a block leaves the links alone when its link stays. -/
theorem nextOf_insert_of_next {s : Store Addr (Block T)} {a : Addr} {b b' : Block T}
    (hb : s.get? a = some b) (hnext : b'.next = b.next) : nextOf (s.insert a b') = nextOf s := by
  rw [nextOf_insert, hnext]
  apply Function.update_eq_self_iff.mpr
  rw [nextOf, hb]
  rfl

/-- **The layout of the queue in memory.** -/
structure Layout (q : Queue T) (addrs : List Addr) (o : ℕ) (xs : List T) : Prop where
  /-- The links from the head visit the blocks `addrs`. -/
  chain : Chain (nextOf q.blocks) (some q.head) addrs none
  /-- These are all the blocks. -/
  mem_dom : ∀ a, a ∈ q.blocks.dom ↔ a ∈ addrs
  dangling : Queue.dangling ∉ addrs
  /-- The block that takes the next value is the tail. -/
  tail : addrs[(o + xs.length) / blockCap]? = some q.tail
  offset_lt : o < blockCap
  block : ∀ j a, addrs[j]? = some a → ∃ b, q.blocks.get? a = some b ∧ b.At o j xs
  len : q.len = xs.length

/-- The queue holds the values `xs`, oldest first. -/
def Represents (q : Queue T) (xs : List T) : Prop := ∃ addrs o, Layout q addrs o xs

variable {q : Queue T} {addrs : List Addr} {o : ℕ} {xs : List T}

/-- The new queue has one block. -/
theorem new_layout : Layout (Queue.new : Queue T) [(Queue.new : Queue T).head] 0 [] := by
  have hget : (Queue.new : Queue T).blocks.get? (Queue.new : Queue T).head = some Block.new :=
    Store.get?_insert_self _ _ _
  constructor
  · refine ⟨rfl, ?_⟩
    show nextOf _ _ = none
    rw [nextOf, hget]
    rfl
  · intro a
    show a ∈ insert _ _ ↔ _
    rw [Finset.mem_insert, List.mem_singleton]
    exact or_iff_left (Finset.notMem_empty a)
  · exact fun h => absurd (List.mem_singleton.mp h) (Nat.succ_ne_zero _).symm
  · have h0 : (0 + ([] : List T).length) / blockCap = 0 := Nat.zero_div _
    rw [h0]
    rfl
  · decide
  · intro j a ha
    cases j with
    | zero =>
      obtain rfl := Option.some.inj ha
      exact ⟨Block.new, hget, rfl, rfl, fun k _ _ x hx => by cases hx⟩
    | succ j => cases ha
  · rfl

/-- **`new`** holds nothing. -/
theorem new_represents : (Queue.new : Queue T).Represents [] := ⟨_, 0, new_layout⟩

/-- Writing over a block of the queue adds none. -/
theorem Layout.mem_dom_insert (h : Layout q addrs o xs) {c : Addr} (hc : c ∈ addrs)
    (b : Block T) (a : Addr) : a ∈ (q.blocks.insert c b).dom ↔ a ∈ addrs := by
  show a ∈ insert _ _ ↔ _
  rw [Finset.mem_insert, h.mem_dom]
  exact or_iff_right_of_imp fun ha => ha ▸ hc

/-- The block that takes the next value has room for it. -/
theorem Layout.tail_block (h : Layout q addrs o xs) :
    ∃ b, q.blocks.get? q.tail = some b ∧ b.At o ((o + xs.length) / blockCap) xs ∧
      b.endIndex = (o + xs.length) % blockCap := by
  obtain ⟨b, hb, hat⟩ := h.block _ _ h.tail
  refine ⟨b, hb, hat, ?_⟩
  have hend := hat.endIndex
  unfold blockCap at hend ⊢
  omega

/-- A position of the chain is determined by its block. -/
theorem Layout.index_unique (h : Layout q addrs o xs) {i j : ℕ} {a : Addr}
    (hi : addrs[i]? = some a) (hj : addrs[j]? = some a) : i = j := by
  obtain ⟨hi', rfl⟩ := List.getElem?_eq_some_iff.mp hi
  obtain ⟨hj', hij⟩ := List.getElem?_eq_some_iff.mp hj
  exact (h.chain.nodup.getElem_inj_iff.mp hij).symm

/-- A block before or behind the tail does not see a push. -/
theorem at_push {b : Block T} {j : ℕ} (hat : b.At o j xs) (hj : j ≠ (o + xs.length) / blockCap)
    (v : T) : b.At o j (xs ++ [v]) := by
  have hend := hat.endIndex
  refine ⟨hat.beginIndex, ?_, fun k hk ho x hx => ?_⟩
  · rw [List.length_append, List.length_singleton]
    unfold blockCap at hend hj ⊢
    omega
  · refine hat.slots k hk ho x ?_
    rwa [List.getElem?_append_left] at hx
    have hlt := (List.getElem?_eq_some_iff.mp hx).1
    rw [List.length_append, List.length_singleton] at hlt
    unfold blockCap at hk hj ho hlt ⊢
    omega

/-- The tail block takes the pushed value. -/
theorem at_push_tail {b b' : Block T} {v : T} (hat : b.At o ((o + xs.length) / blockCap) xs)
    (hbegin : b'.beginIndex = b.beginIndex)
    (hend : b'.endIndex = b.endIndex + 1)
    (hslots : ∀ k, b'.slot k = if k = b.endIndex then some v else b.slot k) :
    b'.At o ((o + xs.length) / blockCap) (xs ++ [v]) := by
  have hend' := hat.endIndex
  refine ⟨hbegin.trans hat.beginIndex, ?_, fun k hk hok x hx => ?_⟩
  · rw [hend, List.length_append, List.length_singleton]
    unfold blockCap at hend' ⊢
    omega
  · rw [hslots k]
    by_cases hke : k = b.endIndex
    · rw [if_pos hke]
      have hidx : blockCap * ((o + xs.length) / blockCap) + k - o = xs.length := by
        unfold blockCap at hend' hok ⊢
        omega
      rw [hidx, List.getElem?_concat_length] at hx
      exact hx
    · rw [if_neg hke]
      refine hat.slots k hk hok x ?_
      rwa [List.getElem?_append_left] at hx
      have hlt := (List.getElem?_eq_some_iff.mp hx).1
      rw [List.length_append, List.length_singleton] at hlt
      unfold blockCap at hk hok hlt hend' hke ⊢
      omega

/-- The blocks after a push, before the tail moves. -/
theorem Layout.block_push (h : Layout q addrs o xs) {b b' : Block T} {v : T}
    (hb : q.blocks.get? q.tail = some b) (hbegin : b'.beginIndex = b.beginIndex)
    (hend : b'.endIndex = b.endIndex + 1)
    (hslots : ∀ k, b'.slot k = if k = b.endIndex then some v else b.slot k) (j : ℕ) (a : Addr)
    (ha : addrs[j]? = some a) :
    ∃ c, (q.blocks.insert q.tail b').get? a = some c ∧ c.At o j (xs ++ [v]) := by
  by_cases hj : j = (o + xs.length) / blockCap
  · subst hj
    obtain rfl := Option.some.inj (ha.symm.trans h.tail)
    obtain ⟨b₀, hb₀, hat⟩ := h.block _ _ ha
    obtain rfl := Option.some.inj (hb.symm.trans hb₀)
    exact ⟨b', Store.get?_insert_self _ _ _, at_push_tail hat hbegin hend hslots⟩
  · have hat : a ≠ q.tail := by
      rintro rfl
      exact hj (h.index_unique ha h.tail)
    obtain ⟨c, hc, hcat⟩ := h.block _ _ ha
    exact ⟨c, (Store.get?_insert_of_ne _ _ hat).trans hc, at_push hcat hj v⟩

/-- When the tail is the last block, the number of blocks is known. -/
theorem Layout.length_eq (h : Layout q addrs o xs) {u : List Addr}
    (hsplit : addrs = u ++ [q.tail]) : addrs.length = (o + xs.length) / blockCap + 1 := by
  have ht := h.tail
  rw [hsplit] at ht
  have hlast : (u ++ [q.tail])[u.length]? = some q.tail := List.getElem?_concat_length
  rw [← hsplit] at ht hlast
  rw [← h.index_unique hlast ht, hsplit, List.length_append, List.length_singleton]

/-- The blocks once a new one is put behind a full tail. -/
theorem block_extend {ys : List T} {t x : Addr} {b' : Block T} {next : Option Addr}
    {s s' : Store Addr (Block T)}
    (hblock : ∀ j a, addrs[j]? = some a → ∃ c, s.get? a = some c ∧ c.At o j ys)
    (hidx : (o + ys.length) / blockCap = addrs.length) (hne : addrs ≠ [])
    (htail : s.get? t = some b') (htail' : s'.get? t = some { b' with next })
    (hnew : s'.get? x = some Block.new)
    (hother : ∀ a ∈ addrs, a ≠ t → s'.get? a = s.get? a) (hfull : (o + ys.length) % blockCap = 0)
    (j : ℕ) (a : Addr) (ha : (addrs ++ [x])[j]? = some a) :
    ∃ c, s'.get? a = some c ∧ c.At o j ys := by
  by_cases hj : j = addrs.length
  · subst hj
    rw [List.getElem?_concat_length] at ha
    obtain rfl := Option.some.inj ha
    refine ⟨Block.new, hnew, ?_, ?_, fun k hk hok y hy => ?_⟩
    · rw [if_neg (List.length_eq_zero_iff.not.mpr hne)]
      rfl
    · have hend : o + ys.length - blockCap * addrs.length = 0 := by
        rw [← hidx]
        unfold blockCap at hfull ⊢
        omega
      rw [hend]
      rfl
    · have hlt := (List.getElem?_eq_some_iff.mp hy).1
      rw [← hidx] at hok hlt
      unfold blockCap at hfull hlt hok
      omega
  · have hlt : j < addrs.length := by
      have hlt := (List.getElem?_eq_some_iff.mp ha).1
      rw [List.length_append, List.length_singleton] at hlt
      omega
    rw [List.getElem?_append_left hlt] at ha
    obtain ⟨c, hc, hat⟩ := hblock j a ha
    by_cases hat' : a = t
    · subst hat'
      obtain rfl := Option.some.inj (htail.symm.trans hc)
      exact ⟨_, htail', hat.beginIndex, hat.endIndex, hat.slots⟩
    · exact ⟨c, (hother a (List.mem_of_getElem? ha) hat').trans hc, hat⟩

/-- The layout once a new block is put behind a full tail. -/
theorem Layout.extend (h : Layout q addrs o xs) {u : List Addr} {b' : Block T} {v : T}
    (hsplit : addrs = u ++ [q.tail]) (hdom : ∀ a, a ∈ (q.blocks.insert q.tail b').dom ↔ a ∈ addrs)
    (hchain : nextOf (q.blocks.insert q.tail b') = nextOf q.blocks)
    (hblock : ∀ j a, addrs[j]? = some a →
      ∃ c, (q.blocks.insert q.tail b').get? a = some c ∧ c.At o j (xs ++ [v]))
    (hidx : (o + (xs ++ [v]).length) / blockCap = (o + xs.length) / blockCap + 1)
    {x : Addr} (hx : x = (q.blocks.insert q.tail b').fresh) :
    Layout { head := q.head
             tail := x
             len := q.len + 1
             blocks := ((q.blocks.insert q.tail b').insert x Block.new).insert q.tail
               { b' with next := some x } } (addrs ++ [x]) o (xs ++ [v]) := by
  have hfresh : x ∉ addrs := fun hm => Store.fresh_not_mem _ (hx ▸ (hdom x).mpr hm)
  have hmem := List.mem_of_getElem? h.tail
  have hxt : x ≠ q.tail := fun heq => hfresh (heq ▸ hmem)
  have hlen := h.length_eq hsplit
  have hlen' : (xs ++ [v]).length = xs.length + 1 := by
    rw [List.length_append, List.length_singleton]
  constructor
  · show Chain (nextOf _) (some q.head) _ _
    rw [nextOf_insert, nextOf_insert, hchain]
    have hc := h.chain
    rw [hsplit] at hc hfresh ⊢
    exact hc.extend hfresh
  · intro a
    show a ∈ insert _ (insert _ _) ↔ _
    rw [Finset.mem_insert, Finset.mem_insert, hdom, List.mem_append, List.mem_singleton]
    constructor
    · rintro (rfl | rfl | ha)
      · exact Or.inl hmem
      · exact Or.inr rfl
      · exact Or.inl ha
    · rintro (ha | rfl)
      · exact Or.inr (Or.inr ha)
      · exact Or.inr (Or.inl rfl)
  · intro hm
    rcases List.mem_append.mp hm with hm | hm
    · exact h.dangling hm
    · rw [hx] at hm
      exact absurd (List.mem_singleton.mp hm) (Nat.succ_ne_zero _).symm
  · rw [hidx, ← hlen]
    exact List.getElem?_concat_length
  · exact h.offset_lt
  · apply block_extend hblock (hidx.trans hlen.symm) (List.ne_nil_of_mem hmem)
      (Store.get?_insert_self _ _ _) (Store.get?_insert_self _ _ _)
    · simp [Store.get?_insert, hxt]
    · intro a ha hat
      have hax : a ≠ x := ne_of_mem_of_not_mem ha hfresh
      simp [Store.get?_insert, hax, hat]
    · rw [hlen'] at hidx ⊢
      unfold blockCap at hidx ⊢
      omega
  · show q.len + 1 = _
    rw [h.len, hlen']

/-- The layout after a push that needs no new block, once the tail is where the next value goes. -/
theorem Layout.write (h : Layout q addrs o xs) {b' : Block T} {v : T}
    (hdom : ∀ a, a ∈ (q.blocks.insert q.tail b').dom ↔ a ∈ addrs)
    (hchain : nextOf (q.blocks.insert q.tail b') = nextOf q.blocks)
    (hblock : ∀ j a, addrs[j]? = some a →
      ∃ c, (q.blocks.insert q.tail b').get? a = some c ∧ c.At o j (xs ++ [v])) {tail : Addr}
    (htail : addrs[(o + (xs ++ [v]).length) / blockCap]? = some tail) :
    Layout { head := q.head
             tail := tail
             len := q.len + 1
             blocks := q.blocks.insert q.tail b' } addrs o (xs ++ [v]) := by
  refine ⟨?_, hdom, h.dangling, htail, h.offset_lt, hblock, ?_⟩
  · show Chain (nextOf (q.blocks.insert q.tail b')) _ _ _
    rw [hchain]
    exact h.chain
  · show q.len + 1 = _
    rw [h.len, List.length_append, List.length_singleton]

/-- The blocks after a push at position `p`: the same ones, or one more when the tail was the last
of them and is full now. -/
def Grows (addrs addrs' : List Addr) (p : ℕ) : Prop :=
  addrs' = addrs ∨ ∃ x, addrs' = addrs ++ [x] ∧ addrs.length = p / blockCap + 1 ∧
    (p + 1) / blockCap = p / blockCap + 1

/-- `push_unchecked`, block by block. -/
theorem Layout.pushUnchecked (h : Layout q addrs o xs) (v : T) :
    ∃ q' addrs', q.pushUnchecked v = .ok q' ∧ Layout q' addrs' o (xs ++ [v]) ∧
      Grows addrs addrs' (o + xs.length) := by
  obtain ⟨b, hb, hat, hend⟩ := h.tail_block
  have hlt : b.endIndex < blockCap := hend ▸ Nat.mod_lt _ (by decide)
  obtain ⟨b', hwrite, hnext, hbegin', hend', hslots⟩ :=
    Block.write_eq hlt { b with endIndex := b.endIndex + 1 } (some v)
  have hend'' : b'.endIndex = b.endIndex + 1 := hend'
  have hblock := h.block_push hb hbegin' hend' hslots
  have hmem : q.tail ∈ addrs := List.mem_of_getElem? h.tail
  have hchain := nextOf_insert_of_next hb hnext
  have hdom := h.mem_dom_insert hmem b'
  have hderef : q.deref q.tail = .ok b := by rw [deref, hb]
  rw [Queue.pushUnchecked, hderef, ok_bind]
  simp only
  rw [hwrite, ok_bind]
  simp only [store]
  by_cases hcan : b'.canWrite = true
  · -- there is room left in the tail
    rw [hcan]
    have hidx : (o + (xs ++ [v]).length) / blockCap = (o + xs.length) / blockCap := by
      rw [Block.canWrite, hend'', decide_eq_true_eq] at hcan
      rw [List.length_append, List.length_singleton]
      unfold blockCap at hcan hend ⊢
      omega
    refine ⟨_, addrs, rfl, h.write hdom hchain hblock ?_, Or.inl rfl⟩
    rw [hidx]
    exact h.tail
  · -- the tail is full: the next block becomes the tail
    have hidx : (o + (xs ++ [v]).length) / blockCap = (o + xs.length) / blockCap + 1 := by
      rw [Block.canWrite, hend'', decide_eq_true_eq] at hcan
      rw [List.length_append, List.length_singleton]
      unfold blockCap at hcan hend hlt ⊢
      omega
    rw [Bool.not_eq_true] at hcan
    rw [hcan]
    simp only [Bool.not_false, ↓reduceIte, hnext]
    obtain ⟨u, w, hsplit, hu⟩ := exists_split_of_getElem? h.tail
    have hbnext : b.next = w.head? := by
      have hc := h.chain
      rw [hsplit] at hc
      have hlink := hc.next_eq
      rwa [nextOf, hb] at hlink
    cases hn : b.next with
    | some ptr =>
      refine ⟨_, addrs, rfl, h.write hdom hchain hblock ?_, Or.inl rfl⟩
      rw [hidx, hsplit, ← hu, getElem?_split_succ, ← hbnext]
      exact hn
    | none =>
      -- there is none: a new block is put behind the tail
      rw [hn] at hbnext
      rw [List.head?_eq_none_iff.mp hbnext.symm] at hsplit
      refine ⟨_, addrs ++ [(q.blocks.insert q.tail b').fresh], rfl,
        h.extend hsplit hdom hchain hblock hidx rfl, Or.inr ⟨_, rfl, h.length_eq hsplit, ?_⟩⟩
      rwa [List.length_append, List.length_singleton, ← Nat.add_assoc] at hidx

/-- **`push_unchecked`** never fails and adds the value at the end. -/
theorem pushUnchecked_spec (h : q.Represents xs) (v : T) :
    ∃ q', q.pushUnchecked v = .ok q' ∧ q'.Represents (xs ++ [v]) := by
  obtain ⟨addrs, o, h⟩ := h
  obtain ⟨q', addrs', hres, h', -⟩ := h.pushUnchecked v
  exact ⟨q', hres, addrs', o, h'⟩

/-- The head block is at the front of the chain. -/
theorem Layout.head_cons (h : Layout q addrs o xs) : ∃ rest, addrs = q.head :: rest := by
  cases addrs with
  | nil => exact absurd h.tail (by simp)
  | cons a rest => exact ⟨rest, by rw [Option.some.inj h.chain.1]⟩

/-- The other blocks when a value is popped and the head block stays: their range stays. -/
theorem at_pop {b : Block T} {j : ℕ} {v : T} (hat : b.At o j (v :: xs)) (hj : j ≠ 0) :
    b.At (o + 1) j xs := by
  have hend := hat.endIndex
  rw [List.length_cons] at hend
  refine ⟨by rw [hat.beginIndex, if_neg hj, if_neg hj], ?_, fun k hk hok x hx => ?_⟩
  · rw [hend]
    congr 1
    omega
  · refine hat.slots k hk (by omega) x ?_
    have hidx : blockCap * j + k - o = (blockCap * j + k - (o + 1)) + 1 := by omega
    rw [hidx, List.getElem?_cons_succ]
    exact hx

/-- The head block after a pop that leaves it in place. -/
theorem at_pop_head {b b' : Block T} {v : T} (hat : b.At o 0 (v :: xs))
    (hbegin : b'.beginIndex = b.beginIndex + 1) (hend : b'.endIndex = b.endIndex)
    (hslots : ∀ k, k ≠ o → b'.slot k = b.slot k) : b'.At (o + 1) 0 xs := by
  have hend' := hat.endIndex
  rw [List.length_cons] at hend'
  refine ⟨by rw [hbegin, hat.beginIndex]; rfl, ?_, fun k hk hok x hx => ?_⟩
  · rw [hend, hend']
    congr 1
    omega
  · rw [hslots k (by omega)]
    refine hat.slots k hk (by omega) x ?_
    have hidx : blockCap * 0 + k - o = (blockCap * 0 + k - (o + 1)) + 1 := by omega
    rw [hidx, List.getElem?_cons_succ]
    exact hx

/-- A block up to the tail moves one place towards the head when the head block is recycled. -/
theorem at_shift {b : Block T} {j : ℕ} {v : T} (hat : b.At o (j + 1) (v :: xs))
    (ho : o + 1 = blockCap) : b.At 0 j xs := by
  have hend := hat.endIndex
  rw [List.length_cons] at hend
  refine ⟨by rw [hat.beginIndex, if_neg (Nat.succ_ne_zero j), ite_self], ?_,
    fun k hk hok x hx => ?_⟩
  · rw [hend]
    unfold blockCap at ho ⊢
    omega
  · refine hat.slots k hk (by unfold blockCap at ho ⊢; omega) x ?_
    have hidx : blockCap * (j + 1) + k - o = (blockCap * j + k - 0) + 1 := by
      unfold blockCap at ho ⊢
      omega
    rw [hidx, List.getElem?_cons_succ]
    exact hx

/-- Behind the values a block is empty, wherever the values start. -/
theorem at_behind {b : Block T} {j : ℕ} {ys : List T} (hbegin : b.beginIndex = 0)
    (hend : b.endIndex = 0) (hj : ys.length ≤ blockCap * j) : b.At 0 j ys := by
  refine ⟨by rw [hbegin, ite_self], ?_, fun k hk hok x hx => ?_⟩
  · rw [hend]
    omega
  · have := (List.getElem?_eq_some_iff.mp hx).1
    omega

/-- Where the tail is when the head block is drained: some blocks behind the head. -/
theorem Layout.exists_split {v : T} (h : Layout q addrs o (v :: xs)) (ho : o + 1 = blockCap) :
    ∃ u w, addrs = q.head :: (u ++ q.tail :: w) ∧
      (o + (v :: xs).length) / blockCap = u.length + 1 := by
  obtain ⟨rest, hrest⟩ := h.head_cons
  have htail := h.tail
  obtain ⟨t, ht⟩ : ∃ t, (o + (v :: xs).length) / blockCap = t + 1 := by
    refine ⟨(o + (v :: xs).length) / blockCap - 1, ?_⟩
    rw [List.length_cons]
    unfold blockCap at ho ⊢
    omega
  rw [ht, hrest, List.getElem?_cons_succ] at htail
  obtain ⟨u, w, rfl, rfl⟩ := exists_split_of_getElem? htail
  exact ⟨u, w, hrest, ht⟩

/-- The block that follows the head. -/
theorem Layout.exists_next (h : Layout q addrs o xs) {u w : List Addr} {b : Block T}
    (hsplit : addrs = q.head :: (u ++ q.tail :: w)) (hb : q.blocks.get? q.head = some b) :
    ∃ head, b.next = some head := by
  have hchain : Chain (nextOf q.blocks) (some q.head) ([] ++ q.head :: (u ++ q.tail :: w)) none :=
    hsplit ▸ h.chain
  have hlink := hchain.next_eq
  rw [nextOf, hb] at hlink
  change b.next = _ at hlink
  cases u with
  | nil => exact ⟨_, hlink⟩
  | cons a u => exact ⟨a, hlink⟩

/-- The blocks once the drained head has been put behind the tail: those up to the tail move one
place towards the head, those behind it stay. -/
theorem Layout.block_recycle {v : T} (h : Layout q addrs o (v :: xs)) (ho : o + 1 = blockCap)
    {u w : List Addr} (hsplit : addrs = q.head :: (u ++ q.tail :: w))
    (ht : (o + (v :: xs).length) / blockCap = u.length + 1) {s : Store Addr (Block T)}
    {c d : Block T} {next : Option Addr} (hc : q.blocks.get? q.tail = some c)
    (htail : s.get? q.tail = some { c with next }) (hhead : s.get? q.head = some d)
    (hbegin : d.beginIndex = 0) (hend : d.endIndex = 0)
    (hother : ∀ a, a ≠ q.head → a ≠ q.tail → s.get? a = q.blocks.get? a) (j : ℕ) (a : Addr)
    (ha : ((u ++ [q.tail]) ++ q.head :: w)[j]? = some a) :
    ∃ b, s.get? a = some b ∧ b.At 0 j xs := by
  have hlen : (u ++ [q.tail]).length = u.length + 1 := by
    rw [List.length_append, List.length_singleton]
  have haddrs : addrs = q.head :: ((u ++ [q.tail]) ++ w) := by
    rw [hsplit, List.append_assoc]
    rfl
  have hhead0 : addrs[0]? = some q.head := by rw [hsplit]; rfl
  have htail' := h.tail
  rw [List.length_cons] at ht
  rw [List.length_cons, ht] at htail'
  rw [getElem?_rotate, ← haddrs, hlen] at ha
  split_ifs at ha with hj hj'
  · -- up to the tail
    obtain ⟨b, hb, hat⟩ := h.block _ _ ha
    have hah : a ≠ q.head := by
      rintro rfl
      exact absurd (h.index_unique ha hhead0) (Nat.succ_ne_zero j)
    have hs := at_shift hat ho
    by_cases hat' : a = q.tail
    · subst hat'
      obtain rfl := Option.some.inj (hc.symm.trans hb)
      exact ⟨_, htail, hs.beginIndex, hs.endIndex, hs.slots⟩
    · exact ⟨b, (hother a hah hat').trans hb, hs⟩
  · -- the recycled block
    obtain rfl := Option.some.inj ha
    refine ⟨d, hhead, at_behind hbegin hend ?_⟩
    unfold blockCap at ho ht ⊢
    omega
  · -- the spare blocks behind it
    obtain ⟨b, hb, hat⟩ := h.block _ _ ha
    have hah : a ≠ q.head := by
      rintro rfl
      exact absurd (h.index_unique ha hhead0) (by omega)
    have hat' : a ≠ q.tail := by
      rintro rfl
      exact absurd (h.index_unique ha htail') (by omega)
    refine ⟨b, (hother a hah hat').trans hb, at_behind ?_ ?_ ?_⟩
    · rw [hat.beginIndex, if_neg (by omega)]
    · rw [hat.endIndex, List.length_cons]
      unfold blockCap at ho ht ⊢
      omega
    · unfold blockCap at ho ht ⊢
      omega

/-- The layout once the drained head block has been put behind the tail. -/
theorem Layout.recycle {v : T} (h : Layout q addrs o (v :: xs)) (ho : o + 1 = blockCap)
    {b : Block T} (b' : Block T) (hb : q.blocks.get? q.head = some b) :
    ∃ head c addrs', b.next = some head ∧ q.head ≠ q.tail ∧ q.blocks.get? q.tail = some c ∧
      addrs'.Perm addrs ∧ Layout
        { head, tail := q.tail, len := q.len - 1
          blocks := ((q.blocks.insert q.head b').insert q.head
            { b'.reset with next := c.next }).insert q.tail
              { c with next := some q.head } } addrs' 0 xs := by
  obtain ⟨u, w, hsplit, ht⟩ := h.exists_split ho
  obtain ⟨c, hc, -, -⟩ := h.tail_block
  obtain ⟨head, hhead⟩ := h.exists_next hsplit hb
  have hchain := h.chain
  rw [hsplit] at hchain
  have hne : q.head ≠ q.tail := fun heq =>
    (List.nodup_cons.mp hchain.nodup).1 (heq ▸ List.mem_append_right u (List.mem_cons_self ..))
  have hperm : ((u ++ [q.tail]) ++ q.head :: w).Perm addrs := by
    have haddrs : addrs = q.head :: ((u ++ [q.tail]) ++ w) := by
      rw [hsplit, List.append_assoc]
      rfl
    rw [haddrs]
    exact List.perm_middle
  have hmem : ∀ a, a ∈ (u ++ [q.tail]) ++ q.head :: w ↔ a ∈ addrs := fun a => hperm.mem_iff
  refine ⟨head, c, (u ++ [q.tail]) ++ q.head :: w, hhead, hne, hc, hperm, ?_⟩
  constructor
  · show Chain (nextOf _) (some head) _ _
    rw [nextOf_insert, nextOf_insert, nextOf_insert, Function.update_idem]
    have hrot := Chain.rotate hchain
    have hnhead : nextOf q.blocks q.head = some head := by rw [nextOf, hb]; exact hhead
    have hntail : nextOf q.blocks q.tail = c.next := by rw [nextOf, hc]; rfl
    rwa [hnhead, hntail] at hrot
  · intro a
    rw [hmem, ← h.mem_dom]
    show a ∈ insert _ (insert _ (insert _ _)) ↔ _
    simp only [Finset.mem_insert, h.mem_dom, hsplit, List.mem_cons, List.mem_append]
    tauto
  · exact fun hd => h.dangling ((hmem _).mp hd)
  · have hidx : (0 + xs.length) / blockCap = u.length := by
      rw [List.length_cons] at ht
      unfold blockCap at ho ht ⊢
      omega
    rw [hidx, List.append_assoc, List.getElem?_append_right le_rfl, Nat.sub_self]
    rfl
  · decide
  · apply h.block_recycle ho hsplit ht hc (Store.get?_insert_self _ _ _)
      (d := { b'.reset with next := c.next }) _ rfl rfl
    · intro a hah hat
      simp [Store.get?_insert, hah, hat]
    · simp [Store.get?_insert, hne]
  · show q.len - 1 = _
    rw [h.len, List.length_cons, Nat.add_sub_cancel]

/-- The layout once the head block has been read and stays. -/
theorem Layout.advance {v : T} (h : Layout q addrs o (v :: xs)) (ho : o + 1 ≠ blockCap)
    {b b' : Block T} (hb : q.blocks.get? q.head = some b) (hnext : b'.next = b.next)
    (hbegin : b'.beginIndex = b.beginIndex + 1) (hend : b'.endIndex = b.endIndex)
    (hslots : ∀ k, k ≠ o → b'.slot k = b.slot k) :
    Layout { head := q.head
             tail := q.tail
             len := q.len - 1
             blocks := q.blocks.insert q.head b' } addrs (o + 1) xs := by
  obtain ⟨rest, hrest⟩ := h.head_cons
  have hhead0 : addrs[0]? = some q.head := by rw [hrest]; rfl
  constructor
  · show Chain (nextOf (q.blocks.insert q.head b')) _ _ _
    rw [nextOf_insert_of_next hb hnext]
    exact h.chain
  · exact h.mem_dom_insert (List.mem_of_getElem? hhead0) b'
  · exact h.dangling
  · have htail := h.tail
    have hsum : o + (v :: xs).length = o + 1 + xs.length := by
      rw [List.length_cons]
      omega
    rwa [hsum] at htail
  · have := h.offset_lt
    omega
  · intro j a ha
    obtain ⟨c, hc, hat⟩ := h.block j a ha
    by_cases hj : j = 0
    · subst hj
      obtain rfl := Option.some.inj (hhead0.symm.trans ha)
      obtain rfl := Option.some.inj (hb.symm.trans hc)
      exact ⟨b', Store.get?_insert_self _ _ _, at_pop_head hat hbegin hend hslots⟩
    · have hah : a ≠ q.head := by
        rintro rfl
        exact hj (h.index_unique ha hhead0)
      exact ⟨c, (Store.get?_insert_of_ne _ _ hah).trans hc, at_pop hat hj⟩
  · show q.len - 1 = _
    rw [h.len, List.length_cons, Nat.add_sub_cancel]

/-- `pop_unchecked`, block by block: no block is lost. -/
theorem Layout.popUnchecked {v : T} (h : Layout q addrs o (v :: xs)) :
    ∃ q' addrs' o', q.popUnchecked = .ok (v, q') ∧ Layout q' addrs' o' xs ∧
      addrs'.Perm addrs := by
  obtain ⟨rest, hrest⟩ := h.head_cons
  have hhead0 : addrs[0]? = some q.head := by rw [hrest]; rfl
  obtain ⟨b, hb, hat⟩ := h.block 0 _ hhead0
  have ho := h.offset_lt
  have hbegin : b.beginIndex = o := hat.beginIndex
  have hend := hat.endIndex
  rw [List.length_cons] at hend
  have hslot : b.slot o = some v := by
    refine hat.slots o ho (by omega) v ?_
    have hidx : blockCap * 0 + o - o = 0 := by omega
    rw [hidx]
    rfl
  have hnonempty : (!b.isEmpty) = true := by
    have hne : b.endIndex ≠ o := by
      rw [hend]
      unfold blockCap at ho ⊢
      omega
    simpa [Block.isEmpty, hbegin] using hne
  obtain ⟨b', htake, hnext, hbegin', hend', hslots⟩ :=
    Block.take_eq ho { b with beginIndex := o + 1 }
  have htake' : ({ b with beginIndex := o + 1 } : Block T).take o = .ok (some v, b') := by
    rw [htake, ← hslot]
    rfl
  have hlen : (q.len != 0) = true := by
    rw [h.len]
    rfl
  have hderef : q.deref q.head = .ok b := by rw [deref, hb]
  simp only [Queue.popUnchecked, hderef, ok_bind, hnonempty, assert_true, hbegin, htake', store, hlen,
    hbegin']
  by_cases hfull : o + 1 = blockCap
  · -- the head block is drained
    obtain ⟨head, c, addrs', hbnext, hne, hc, hperm, h'⟩ := h.recycle hfull b' hb
    have hnext' : b'.next = some head := hnext.trans hbnext
    have hd₁ : ({ head, tail := q.tail, len := q.len - 1,
                  blocks := q.blocks.insert q.head b' } : Queue T).deref q.tail = .ok c := by
      rw [deref, Store.get?_insert_of_ne _ _ (Ne.symm hne), hc]
    have hd₂ : ({ head, tail := q.tail, len := q.len - 1,
                  blocks := ((q.blocks.insert q.head b').insert q.head
                    { b'.reset with next := c.next }) } : Queue T).deref q.tail = .ok c := by
      rw [deref, Store.get?_insert_of_ne _ _ (Ne.symm hne),
        Store.get?_insert_of_ne _ _ (Ne.symm hne), hc]
    simp only [hfull, ↓reduceIte, hnext', hd₁, ok_bind, hd₂]
    exact ⟨_, addrs', 0, rfl, h', hperm⟩
  · simp only [hfull, ↓reduceIte]
    exact ⟨_, addrs, o + 1, rfl, h.advance hfull hb hnext (hbegin ▸ hbegin') hend' hslots, .refl _⟩

/-- **`pop_unchecked`** never fails on a queue that holds something, and removes the oldest
value. -/
theorem popUnchecked_spec {v : T} (h : q.Represents (v :: xs)) :
    ∃ q', q.popUnchecked = .ok (v, q') ∧ q'.Represents xs := by
  obtain ⟨addrs, o, h⟩ := h
  obtain ⟨q', addrs', o', hres, h', -⟩ := h.popUnchecked
  exact ⟨q', hres, addrs', o', h'⟩

theorem Represents.len_eq (h : q.Represents xs) : q.len = xs.length := by
  obtain ⟨_, _, h⟩ := h
  exact h.len

theorem Represents.isEmpty_eq (h : q.Represents xs) : q.isEmpty = xs.isEmpty := by
  rw [isEmpty, h.len_eq]
  cases xs <;> rfl

/-! ### Freeing the blocks -/

/-- The loop of `free_blocks` frees the blocks of its chain, each once. -/
theorem freeLoop_spec (fuel : ℕ) {cur : Option Addr} (h : Chain (nextOf q.blocks) cur addrs none)
    (hlive : ∀ a ∈ addrs, a ∈ q.blocks.dom) (hfuel : addrs.length < fuel) :
    ∃ q', freeLoop fuel q cur = .ok q' ∧ q'.len = q.len ∧ freed fuel q cur = addrs ∧
      ∀ a, q'.blocks.get? a = if a ∈ addrs then none else q.blocks.get? a := by
  induction addrs generalizing q cur fuel with
  | nil =>
    obtain ⟨fuel, rfl⟩ : ∃ f, fuel = f + 1 := ⟨fuel - 1, by omega⟩
    obtain rfl : cur = none := h
    exact ⟨q, rfl, rfl, rfl, fun a => by simp⟩
  | cons a addrs ih =>
    obtain ⟨fuel, rfl⟩ : ∃ f, fuel = f + 1 := ⟨fuel - 1, by omega⟩
    have hnd := List.nodup_cons.mp h.nodup
    obtain ⟨rfl, hchain⟩ := h
    obtain ⟨b, hb⟩ := Store.exists_get?_of_mem (hlive a (List.mem_cons_self ..))
    have hnext : nextOf q.blocks a = b.next := by rw [nextOf, hb]; rfl
    have hchain' : Chain (nextOf (q.blocks.erase a)) b.next addrs none := by
      rw [← hnext]
      refine hchain.congr fun c hc => ?_
      rw [nextOf, nextOf, Store.get?_erase_of_ne _ (ne_of_mem_of_not_mem hc hnd.1)]
    obtain ⟨q', hres, hlen, hfreed, hget⟩ := ih (q := { q with blocks := q.blocks.erase a }) fuel hchain'
      (fun c hc => Finset.mem_erase.mpr
        ⟨ne_of_mem_of_not_mem hc hnd.1, hlive c (List.mem_cons_of_mem _ hc)⟩)
      (by rw [List.length_cons] at hfuel; omega)
    have hderef : q.deref a = .ok b := by rw [deref, hb]
    refine ⟨q', ?_, hlen, ?_, fun c => ?_⟩
    · rw [freeLoop, hderef, ok_bind]
      exact hres
    · rw [freed, hderef]
      exact congrArg (a :: ·) hfreed
    · rw [hget c, Store.get?_erase]
      by_cases hca : c = a
      · subst hca
        simp
      · simp [hca]

/-- `free_blocks`, block by block: it frees the blocks in the order of the chain. -/
theorem Layout.freeBlocks (h : Layout q addrs o xs) :
    ∃ q', q.freeBlocks = .ok q' ∧ q'.len = q.len ∧ q'.blocks = Store.empty ∧
      q.freedBlocks = addrs := by
  obtain ⟨rest, hrest⟩ := h.head_cons
  have hne : (q.head != Queue.dangling) = true := by
    rw [bne_iff_ne]
    intro hd
    exact h.dangling (by rw [hrest, hd]; exact List.mem_cons_self ..)
  have hcard : addrs.length ≤ q.blocks.dom.card := by
    rw [← List.toFinset_card_of_nodup h.chain.nodup]
    exact Finset.card_le_card fun a ha => (h.mem_dom a).mpr (List.mem_toFinset.mp ha)
  obtain ⟨q', hres, hlen, hfreed, hget⟩ := freeLoop_spec (q := { q with head := Queue.dangling })
    (q.blocks.dom.card + 1) h.chain (fun a ha => (h.mem_dom a).mpr ha) (by omega)
  refine ⟨q', ?_, hlen, Store.ext_get? fun a => ?_, hfreed⟩
  · simp only [Queue.freeBlocks, hne, assert_true, ok_bind]
    exact hres
  · rw [hget a]
    split_ifs with ha
    · rfl
    · exact Store.not_mem_dom_iff.mp fun hd => ha ((h.mem_dom a).mp hd)

/-- **`free_blocks`** never fails and frees all blocks. -/
theorem freeBlocks_spec (h : q.Represents xs) :
    ∃ q', q.freeBlocks = .ok q' ∧ q'.len = q.len ∧ q'.blocks = Store.empty := by
  obtain ⟨addrs, o, h⟩ := h
  obtain ⟨q', hres, hlen, hblocks, -⟩ := h.freeBlocks
  exact ⟨q', hres, hlen, hblocks⟩

/-! ### Runs -/

/-- **What holds of the queue between two calls**, with what went in and came out so far. -/
structure IsFifo (s : Log T) : Prop where
  /-- The values come out in the order they went in, each at most once. -/
  fifo : s.popped <+: s.pushed
  /-- The length is the number of values that are inside. -/
  len : s.popped.length + s.queue.len = s.pushed.length
  isEmpty : s.queue.isEmpty = true ↔ s.popped.length = s.pushed.length
  /-- The tail block has a free slot. -/
  tail : ∃ b, s.queue.blocks.get? s.queue.tail = some b ∧ b.canWrite = true
  /-- A push meets no index out of bounds and no freed block. -/
  push_ok : ∀ v, ∃ q, s.queue.pushUnchecked v = .ok q
  /-- Nor does a pop of a queue that is not empty; it meets no slot without a value and no failed
  assertion either. -/
  pop_ok : 0 < s.queue.len → ∃ v q, s.queue.popUnchecked = .ok (v, q)

/-- The invariant of the runs: what went in is what came out and what is inside. -/
def Log.Inv (s : Log T) : Prop := ∃ xs, s.queue.Represents xs ∧ s.pushed = s.popped ++ xs

theorem Log.Inv.step {s t : Log T} {c : Action T} (h : s.Inv) (hstep : s.Step c t) : t.Inv := by
  obtain ⟨xs, hrep, hpushed⟩ := h
  obtain ⟨hc, hres⟩ := hstep
  cases c with
  | push v =>
    obtain ⟨q', hq', hrep'⟩ := pushUnchecked_spec hrep v
    rw [Log.exec, hq', ok_bind] at hres
    obtain rfl := Except.ok.inj hres
    refine ⟨xs ++ [v], hrep', ?_⟩
    show s.pushed ++ [v] = s.popped ++ (xs ++ [v])
    rw [hpushed, List.append_assoc]
  | pop =>
    cases xs with
    | nil =>
      have hpos : 0 < s.queue.len := hc
      rw [hrep.len_eq] at hpos
      exact absurd hpos (Nat.lt_irrefl 0)
    | cons v xs =>
      obtain ⟨q', hq', hrep'⟩ := popUnchecked_spec hrep
      rw [Log.exec, hq', ok_bind] at hres
      obtain rfl := Except.ok.inj hres
      refine ⟨xs, hrep', ?_⟩
      show s.pushed = (s.popped ++ [v]) ++ xs
      rw [hpushed, List.append_assoc]
      rfl

theorem Log.Inv.isFifo {s : Log T} (h : s.Inv) : IsFifo s := by
  obtain ⟨xs, hrep, hpushed⟩ := h
  have hlen : s.pushed.length = s.popped.length + xs.length := by
    rw [hpushed, List.length_append]
  constructor
  · exact ⟨xs, hpushed.symm⟩
  · rw [hrep.len_eq, hlen]
  · rw [hrep.isEmpty_eq, List.isEmpty_iff, hlen, ← List.length_eq_zero_iff]
    omega
  · obtain ⟨addrs, o, hl⟩ := hrep
    obtain ⟨b, hb, -, hend⟩ := hl.tail_block
    refine ⟨b, hb, ?_⟩
    rw [Block.canWrite, hend, decide_eq_true_eq]
    exact Nat.mod_lt _ (by decide)
  · intro v
    obtain ⟨q', hq', -⟩ := pushUnchecked_spec hrep v
    exact ⟨q', hq'⟩
  · intro hpos
    cases xs with
    | nil =>
      rw [hrep.len_eq] at hpos
      exact absurd hpos (Nat.lt_irrefl 0)
    | cons v xs =>
      obtain ⟨q', hq', -⟩ := popUnchecked_spec hrep
      exact ⟨v, q', hq'⟩

/-- **The block queue is a FIFO queue**, after every sequence of pushes, and of pops of a queue
that is not empty. -/
theorem queue_isFifo {cs : List (Action T)} {s : Log T} (hrun : Run Log.Step Log.new cs s) :
    IsFifo s :=
  (hrun.invariant (I := Log.Inv) (fun _ _ _ h hstep => h.step hstep)
    ⟨[], new_represents, rfl⟩).isFifo

/-- A run over a block boundary: 40 values go in, 33 come out again. -/
theorem queue_isFifo_boundary : ∃ cs s, Run (Log.Step (T := ℕ)) Log.new cs s ∧ IsFifo s ∧
    s.pushed = List.range 40 ∧ s.popped = List.range 33 := by
  have h : (((List.range 40).map Action.push ++ List.replicate 33 Action.pop).foldlM
      (attempt Log.Allowed Log.exec) Log.new).map (fun s : Log ℕ => (s.pushed, s.popped)) =
        some (List.range 40, List.range 33) := by
    decide +kernel
  obtain ⟨s, hres, hlogs⟩ := Option.map_eq_some_iff.mp h
  have hrun := run_of_foldlM (fun _ _ _ => of_attempt) hres
  obtain ⟨hpushed, hpopped⟩ := Prod.mk.inj hlogs
  exact ⟨_, s, hrun, queue_isFifo hrun, hpushed, hpopped⟩

end Queue

end LocalSync.Mpsc
