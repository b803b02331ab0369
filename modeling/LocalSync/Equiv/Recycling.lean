/-
  The blocks of the queue over a run.

  A push allocates a block only when the last one is full, and a pop puts the
  drained head block behind the tail.  So between two calls there are as many
  blocks as before, or as many as what is inside needs (`Layout.step`), and the
  chain from the head holds every block that was ever allocated
  (`blocks_recycled`).
-/
import LocalSync.Equiv.Block
import Mathlib.Order.Bounds.Basic

namespace LocalSync.Mpsc.Queue

open Lib

variable {T : Type} {q : Queue T} {s t : Log T} {c : Action T} {cs : List (Action T)}
  {addrs : List Addr} {o : ℕ} {xs : List T}

/-- The blocks that `n` values in a row fill, the last one perhaps in part. -/
def blocksFor (n : ℕ) : ℕ := (n + (blockCap - 1)) / blockCap

theorem blocksFor_mono {m n : ℕ} (h : m ≤ n) : blocksFor m ≤ blocksFor n :=
  Nat.div_le_div_right (Nat.add_le_add_right h _)

/-- When the tail has moved on to a new block, the values inside reach from the head block to the
end of the block before it. -/
theorem Layout.length_grown (h : Layout q addrs o xs) {p : ℕ} (hp : p + 1 = o + xs.length)
    (hnext : (p + 1) / blockCap = p / blockCap + 1) : p / blockCap + 1 ≤ blocksFor xs.length := by
  have ho := h.offset_lt
  unfold blocksFor blockCap at *
  omega

/-- **One call** keeps all blocks; the number of blocks stays, or is what the values inside need. -/
theorem Layout.step (h : Layout s.queue addrs o xs) (hstep : s.Step c t) :
    ∃ addrs' o' xs', Layout t.queue addrs' o' xs' ∧ addrs ⊆ addrs' ∧
      (addrs'.length = addrs.length ∨ addrs'.length ≤ blocksFor xs'.length + 1) := by
  obtain ⟨hc, hres⟩ := hstep
  cases c with
  | push v =>
    obtain ⟨q', addrs', hq', h', hgrows⟩ := h.pushUnchecked v
    rw [Log.exec, hq', ok_bind] at hres
    obtain rfl := Except.ok.inj hres
    refine ⟨addrs', o, xs ++ [v], h', ?_⟩
    rcases hgrows with rfl | ⟨x, rfl, hlen, hnext⟩
    · exact ⟨List.Subset.refl _, Or.inl rfl⟩
    · refine ⟨List.subset_append_left _ _, Or.inr ?_⟩
      rw [List.length_append, List.length_singleton, hlen]
      refine Nat.add_le_add_right (h'.length_grown ?_ hnext) 1
      rw [List.length_append, List.length_singleton, Nat.add_assoc]
  | pop =>
    cases xs with
    | nil =>
      have hpos : 0 < s.queue.len := hc
      rw [h.len] at hpos
      exact absurd hpos (Nat.lt_irrefl 0)
    | cons v xs =>
      obtain ⟨q', addrs', o', hq', h', hperm⟩ := h.popUnchecked
      rw [Log.exec, hq', ok_bind] at hres
      obtain rfl := Except.ok.inj hres
      exact ⟨addrs', o', xs, h', hperm.symm.subset, Or.inl hperm.length_eq⟩

/-- The blocks behind the tail are spare. -/
theorem Layout.spare (h : Layout q addrs o xs) {u w : List Addr} (hsplit : addrs = u ++ q.tail :: w)
    {a : Addr} (ha : a ∈ w) :
    ∃ b, q.blocks.get? a = some b ∧ b.beginIndex = 0 ∧ b.endIndex = 0 := by
  obtain ⟨k, hk⟩ := List.mem_iff_getElem?.mp ha
  have htail : addrs[u.length]? = some q.tail := by
    rw [hsplit, List.getElem?_append_right le_rfl, Nat.sub_self]
    rfl
  have hidx : (o + xs.length) / blockCap = u.length := h.index_unique h.tail htail
  have hget : addrs[u.length + (k + 1)]? = some a := by
    rw [hsplit, List.getElem?_append_right (Nat.le_add_right _ _), Nat.add_sub_cancel_left]
    exact hk
  obtain ⟨b, hb, hat⟩ := h.block _ _ hget
  refine ⟨b, hb, ?_, ?_⟩
  · rw [hat.beginIndex, if_neg (by omega)]
  · rw [hat.endIndex]
    unfold blockCap at hidx ⊢
    omega

/-! ### Runs -/

/-- The blocks allocated by the calls `cs`. -/
def Allocated (T : Type) (cs : List (Action T)) (a : Addr) : Prop :=
  ∃ u : Log T, Visited Log.Step Log.new cs u ∧ a ∈ u.queue.blocks.dom

/-- The values of `len` that the calls `cs` lead through. -/
def lens (cs : List (Action T)) : Set ℕ :=
  { n | ∃ u : Log T, Visited Log.Step Log.new cs u ∧ u.queue.len = n }

/-- **What holds of the blocks after the calls `cs`**, when the links from the head lead through
the blocks `addrs`. -/
structure Recycled (cs : List (Action T)) (s : Log T) (addrs : List Addr) : Prop where
  /-- The chain from the head ends. -/
  chain : Chain (nextOf s.queue.blocks) (some s.queue.head) addrs none
  nodup : addrs.Nodup
  /-- It visits the blocks ever allocated. -/
  mem_iff : ∀ a, a ∈ addrs ↔ Allocated T cs a
  tail_mem : s.queue.tail ∈ addrs
  /-- The blocks behind the tail are reset. -/
  spare : ∀ u w, addrs = u ++ s.queue.tail :: w → ∀ a ∈ w,
    ∃ b, s.queue.blocks.get? a = some b ∧ b.beginIndex = 0 ∧ b.endIndex = 0
  /-- There is at most one block more than the largest number of values inside needed. -/
  length_le : ∃ m, IsGreatest (lens cs) m ∧ addrs.length ≤ blocksFor m + 1
  /-- Once the queue is drained, `free_blocks` returns and frees every block, each once. -/
  freed : s.queue.len = 0 → ∃ q, s.queue.freeBlocks = .ok q ∧ q.blocks = Store.empty ∧
    s.queue.freedBlocks = addrs

/-- A call has one result. -/
theorem Log.Step.unique (s : Log T) (c : Action T) (t u : Log T) (ht : s.Step c t)
    (hu : s.Step c u) : t = u := Except.ok.inj (ht.2.symm.trans hu.2)

theorem allocated_snoc (hrun : Run Log.Step Log.new (cs ++ [c]) t) {a : Addr} :
    Allocated T (cs ++ [c]) a ↔ Allocated T cs a ∨ a ∈ t.queue.blocks.dom := by
  constructor
  · rintro ⟨u, hu, ha⟩
    rcases visited_snoc.mp hu with hu | hu
    · exact Or.inl ⟨u, hu, ha⟩
    · exact Or.inr (hu.unique Log.Step.unique hrun ▸ ha)
  · rintro (⟨u, hu, ha⟩ | ha)
    · exact ⟨u, visited_snoc.mpr (Or.inl hu), ha⟩
    · exact ⟨t, hrun.visited, ha⟩

theorem lens_snoc (hrun : Run Log.Step Log.new (cs ++ [c]) t) :
    lens (cs ++ [c]) = insert t.queue.len (lens cs) := by
  ext n
  constructor
  · rintro ⟨u, hu, hn⟩
    rcases visited_snoc.mp hu with hu | hu
    · exact Or.inr ⟨u, hu, hn⟩
    · exact Or.inl (hu.unique Log.Step.unique hrun ▸ hn.symm)
  · rintro (rfl | ⟨u, hu, hn⟩)
    · exact ⟨t, hrun.visited, rfl⟩
    · exact ⟨u, visited_snoc.mpr (Or.inl hu), hn⟩

/-- The invariant of the blocks. -/
theorem exists_layout (hrun : Run Log.Step Log.new cs s) :
    ∃ addrs o xs m, Layout s.queue addrs o xs ∧ (∀ a, a ∈ addrs ↔ Allocated T cs a) ∧
      IsGreatest (lens cs) m ∧ addrs.length ≤ blocksFor m + 1 := by
  induction hrun with
  | nil =>
    refine ⟨_, 0, [], 0, new_layout, fun a => ?_, ⟨⟨Log.new, visited_nil.mpr rfl, rfl⟩, ?_⟩,
      Nat.le_add_left _ _⟩
    · rw [← new_layout.mem_dom (T := T)]
      constructor
      · exact fun ha => ⟨Log.new, visited_nil.mpr rfl, ha⟩
      · rintro ⟨u, hu, ha⟩
        rwa [visited_nil.mp hu] at ha
    · rintro n ⟨u, hu, rfl⟩
      rw [visited_nil.mp hu]
      rfl
  | snoc hrun hstep ih =>
    obtain ⟨addrs, o, xs, m, h, hmem, hgreatest, hlen⟩ := ih
    obtain ⟨addrs', o', xs', h', hsub, hlen'⟩ := h.step hstep
    have hsnoc := hrun.snoc hstep
    refine ⟨addrs', o', xs', max xs'.length m, h', fun a => ?_, ?_, ?_⟩
    · rw [allocated_snoc hsnoc, ← hmem, ← h'.mem_dom]
      exact (or_iff_right_of_imp fun ha => (h'.mem_dom a).mpr (hsub ha)).symm
    · rw [lens_snoc hsnoc, h'.len]
      exact hgreatest.insert _
    · rcases hlen' with heq | hle
      · rw [heq]
        exact hlen.trans (Nat.add_le_add_right (blocksFor_mono (le_max_right _ _)) 1)
      · exact hle.trans (Nat.add_le_add_right (blocksFor_mono (le_max_left _ _)) 1)

/-- **Blocks are recycled.** After every sequence of pushes, and of pops of a queue that is not
empty, no block is lost and none is in the chain twice. -/
theorem blocks_recycled (hrun : Run Log.Step Log.new cs s) : ∃ addrs, Recycled cs s addrs := by
  obtain ⟨addrs, o, xs, m, h, hmem, hgreatest, hlen⟩ := exists_layout hrun
  refine ⟨addrs, h.chain, h.chain.nodup, hmem, List.mem_of_getElem? h.tail,
    fun u w hsplit a ha => h.spare hsplit ha, ⟨m, hgreatest, hlen⟩, fun _ => ?_⟩
  obtain ⟨q, hres, -, hblocks, hfreed⟩ := h.freeBlocks
  exact ⟨q, hres, hblocks, hfreed⟩

/-- A run that uses a block twice: 40 values go in, 33 come out, 60 more go in, and all come
out. -/
theorem blocks_recycled_twice : ∃ cs s addrs, Run (Log.Step (T := ℕ)) Log.new cs s ∧
    Recycled cs s addrs ∧ s.pushed = List.range 100 ∧ s.queue.len = 0 := by
  have h : (((List.range 40).map Action.push ++ List.replicate 33 Action.pop ++
      ((List.range 60).map fun k => Action.push (40 + k)) ++ List.replicate 67 Action.pop).foldlM
        (attempt Log.Allowed Log.exec) Log.new).map (fun s : Log ℕ => (s.pushed, s.queue.len)) =
          some (List.range 100, 0) := by
    decide +kernel
  obtain ⟨s, hres, hs⟩ := Option.map_eq_some_iff.mp h
  have hrun := run_of_foldlM (fun _ _ _ => of_attempt) hres
  obtain ⟨hpushed, hlen⟩ := Prod.mk.inj hs
  obtain ⟨addrs, hrecycled⟩ := blocks_recycled hrun
  exact ⟨_, s, addrs, hrun, hrecycled, hpushed, hlen⟩

end LocalSync.Mpsc.Queue
