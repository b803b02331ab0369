/-
  Cancelling leaves no trace.

  A future `A` that waits holds back everybody behind it, and keeps the permits
  it has received so far.  `cancel_no_trace` compares two runs of the same calls
  of the other clients: in one of them `A` has been polled first, and is dropped
  in the end.  Requests that are granted at once in the run without `A` wait in
  the other one, but after the drop both runs have come to the same
  (`NoTrace`).

  The invariant of the two runs (`Parallel`) is that both lines have had the
  same supply and the same demands, but for the demand of `A`.
-/
import LocalSync.Equiv.SemaphoreRuns
import LocalSync.Semaphore.Line

namespace LocalSync.Semaphore

open Lib

variable {P : PointerWidth} {W : Type}

/-- What a call adds to the demands. -/
def Action.demand (sizes : Store Addr UInt32) : Action W → List (Addr × ℕ)
  | .poll i _ => [(i, (sizes.get? i).elim 0 UInt32.toNat)]
  | _ => []

/-- The sizes of the futures after a call that drops none. -/
def Action.sizes (sizes : Store Addr UInt32) : Action W → Store Addr UInt32
  | .acquireMany i n => sizes.insert i n
  | _ => sizes

/-- The future that a call creates or polls. -/
def Action.target : Action W → Option Addr
  | .acquireMany i _ => some i
  | .poll i _ => some i
  | _ => none

namespace System

/-- The future at `i` has not been polled. -/
def Unpolled (s : System P W) (i : Addr) : Prop := (s.sem.history.track i).firstPoll = 0

/-- What the other clients do: they create futures, poll them for the first time, and add
permits. -/
def Others (A : Addr) (s : System P W) : Action W → Prop
  | .addPermits _ => True
  | .acquireMany _ _ => True
  | .poll i _ => i ≠ A ∧ s.Unpolled i ∧
      ∀ f, s.sem.inner.acquires.get? i = some f → 1 ≤ f.numPermits.toNat
  | _ => False

instance (s : System P W) (i : Addr) : Decidable (s.Unpolled i) :=
  inferInstanceAs (Decidable ((s.sem.history.track i).firstPoll = 0))

instance (A : Addr) (s : System P W) : ∀ c : Action W, Decidable (s.Others A c)
  | .addPermits _ => .isTrue trivial
  | .acquireMany _ _ => .isTrue trivial
  | .poll i _ => decidable_of_iff (i ≠ A ∧ s.Unpolled i ∧
      (s.sem.inner.acquires.get? i).all (1 ≤ ·.numPermits.toNat)) (by
        rw [Option.all_eq_true]
        simp only [decide_eq_true_eq, Others])
  | .dropAcquire _ => .isFalse id
  | .tryAcquireMany _ => .isFalse id
  | .dropPermit _ => .isFalse id
  | .forget _ => .isFalse id
  | .close => .isFalse id

/-- One call of another client, whatever it returns. -/
def OthersStep [Waker W] (A : Addr) (s : System P W) (c : Action W) (t : System P W) : Prop :=
  s.Others A c ∧ ∃ o, s.BoundedStep (c, o) t

/-- What the future at `i` still needs: nothing more once it has returned. -/
def remaining (s : System P W) (i : Addr) : Option ℕ :=
  (s.sem.inner.acquires.get? i).map fun f =>
    if (s.sem.history.track i).finished then 0 else f.node.state

/-- **The states `s` and `t` are the same to everybody but `A`.** -/
structure NoTrace (A : Addr) (s t : System P W) : Prop where
  available : s.sem.inner.availablePermits = t.sem.inner.availablePermits
  /-- The same futures wait, in the same order. -/
  waitList : ∃ q, s.sem.inner.WaitList q ∧ t.sem.inner.WaitList q
  /-- Every other future still needs the same. -/
  remaining : ∀ i, i ≠ A → s.remaining i = t.remaining i

variable [Waker W] {s t x y : System P W} {a b : Fair W} {A i : Addr} {c : Action W} {o : Output}
  {n : ℕ} {l : List (Addr × ℕ)}

/-! ### One call of another client -/

/-- A poll shows in the history, and forgets nothing. -/
theorem poll_history {cx : W} {r : Poll (Except AcquireError ℕ)} (h : s.poll i cx = .ok (r, t)) :
    t.forgotten = s.forgotten ∧ ∃ m, t.sem.history = s.sem.history.poll i cx m r.isPending := by
  unfold poll at h
  split at h
  · cases h
  · obtain ⟨⟨r', sem⟩, hsem, h⟩ := bind_eq_ok.mp h
    obtain ⟨⟨r'', inner⟩, -, hsem⟩ := bind_eq_ok.mp hsem
    obtain ⟨rfl, rfl⟩ := Prod.mk.inj (Except.ok.inj hsem)
    rcases r'' with (e | u) | _ <;> obtain ⟨rfl, rfl⟩ := Prod.mk.inj (Except.ok.inj h) <;>
      exact ⟨rfl, _, rfl⟩

/-- The history of a future that a call does not touch stays what it is, and nothing is
forgotten. -/
theorem others_frame (hc : s.Others A c) (h : s.exec c = .ok (o, t)) :
    t.forgotten = s.forgotten ∧
      ∀ j, c.target ≠ some j → t.sem.history.track j = s.sem.history.track j := by
  cases c with
  | addPermits n =>
    obtain ⟨u, hu, h⟩ := bind_eq_ok.mp h
    obtain ⟨-, rfl⟩ := Prod.mk.inj (Except.ok.inj h)
    obtain ⟨sem, hsem, hu⟩ := bind_eq_ok.mp hu
    obtain rfl := Except.ok.inj hu
    exact ⟨rfl, fun j _ => by rw [Tracked.history_release hsem]⟩
  | acquireMany i n =>
    obtain ⟨-, rfl⟩ := Prod.mk.inj (Except.ok.inj h)
    refine ⟨rfl, fun j hj => ?_⟩
    exact s.sem.history.track_acquire_of_ne fun hji => hj (congrArg some hji.symm)
  | poll i cx =>
    obtain ⟨⟨r, u⟩, hu, h⟩ := bind_eq_ok.mp h
    obtain ⟨-, rfl⟩ := Prod.mk.inj (Except.ok.inj h)
    obtain ⟨hforgotten, m, hhistory⟩ := poll_history hu
    refine ⟨hforgotten, fun j hj => ?_⟩
    rw [hhistory]
    exact s.sem.history.track_poll_of_ne (fun hji => hj (congrArg some hji.symm)) _ _ _
  | _ => exact hc.elim

omit [Waker W] in
/-- A future that has been polled stays polled. -/
theorem firstPoll_pos (hclock : 0 < s.sem.history.clock) (cx : W) (m : ℕ) (pending : Bool) :
    0 < ((s.sem.history.poll i cx m pending).track i).firstPoll := by
  rw [s.sem.history.track_poll_self]
  dsimp only
  split_ifs with h0
  · exact hclock
  · exact Nat.pos_of_ne_zero h0

/-- Creating a future gives it a new history, and polling it starts one. -/
theorem unpolled_target (hclock : 0 < s.sem.history.clock) (h : s.exec c = .ok (o, t))
    (hi : c.target = some i) : t.Unpolled i ↔ ∃ n, c = .acquireMany i n := by
  cases c with
  | acquireMany j n =>
    obtain rfl := Option.some.inj hi
    obtain ⟨-, rfl⟩ := Prod.mk.inj (Except.ok.inj h)
    refine iff_of_true ?_ ⟨n, rfl⟩
    exact congrArg Track.firstPoll (s.sem.history.track_acquire_self j)
  | poll j cx =>
    obtain rfl := Option.some.inj hi
    obtain ⟨⟨r, u⟩, hu, h⟩ := bind_eq_ok.mp h
    obtain ⟨-, rfl⟩ := Prod.mk.inj (Except.ok.inj h)
    obtain ⟨-, m, hhistory⟩ := poll_history hu
    refine iff_of_false (fun h0 => ?_) (fun ⟨n, hn⟩ => by cases hn)
    rw [Unpolled, hhistory] at h0
    exact (firstPoll_pos hclock cx m r.isPending).ne' h0
  | _ => cases hi

/-- **One call of another client** adds to the supply and to the demands, and does nothing else. -/
theorem others_spec (hP : ∀ n : UInt32, n.toNat ≤ Inner.maxPermits P) (h : Inv s a)
    (hopen : a.closed = false) (hserves : a.Serves n l) (hc : s.Others A c) (hallowed : s.Allowed c)
    (hmax : s.total + c.amount ≤ Inner.maxPermits P) :
    ∃ o t b, s.exec c = .ok (o, t) ∧ Inv t b ∧ b.closed = false ∧
      b.Serves (n + c.amount) (l ++ c.demand a.sizes) ∧ b.sizes = c.sizes a.sizes ∧
      t.total = s.total + c.amount := by
  have ha := h.models.sound
  have htotal : ∀ {o t}, s.exec c = .ok (o, t) → Moves s t c.amount →
      t.total = s.total + c.amount := by
    intro o t hres hmoves
    have := hmoves.balance
    have := (others_frame hc hres).1
    omega
  cases c with
  | addPermits m =>
    obtain ⟨t, hres, ht, hmoves⟩ := addPermits_spec (n := m) h hmax
    have hexec : s.exec (.addPermits m) = .ok (.unit, t) := by rw [exec, hres]; rfl
    refine ⟨_, t, _, hexec, ht, ?_, ?_, Fair.sizes_release a m, htotal hexec hmoves⟩
    · rw [Fair.closed_release, hopen]
    · rw [show (Action.addPermits m : Action W).demand a.sizes = [] from rfl, List.append_nil]
      exact hserves.release ha m
  | acquireMany i m =>
    obtain ⟨ht, hmoves⟩ := acquireMany_spec hP h hallowed m
    have hnone : a.requests.get? i = none := by rw [h.models.get?_eq, hallowed]; rfl
    refine ⟨_, _, _, rfl, ht, hopen, ?_, Fair.sizes_acquire a i m, htotal rfl hmoves⟩
    rw [show (Action.acquireMany i m : Action W).demand a.sizes = [] from rfl, List.append_nil]
    exact hserves.acquire ha hnone m
  | poll i cx =>
    obtain ⟨hiA, h0, hpos⟩ := hc
    obtain ⟨r, hr⟩ := h.exists_request hallowed.1
    obtain ⟨f, hf, rfl⟩ := h.exists_future hr
    obtain ⟨hqueued, hneed, -⟩ := h.models.chronicle.fresh i _ hr h0
    obtain ⟨o, t, hres, ht, hmoves, -⟩ := poll_spec h hr hallowed.2 cx
    have hexec : s.exec (.poll i cx) = .ok (.polled o, t) := by rw [exec, hres]; rfl
    refine ⟨_, t, _, hexec, ht, ?_, ?_, Fair.sizes_poll a i cx, htotal hexec hmoves⟩
    · rw [Fair.closed_poll, hopen]
    · rw [Action.demand, Fair.sizes_of_get? hr]
      exact hserves.poll ha hopen hr hqueued hneed (hpos f hf) cx
  | _ => exact hc.elim

/-! ### Two runs -/

/-- **The two runs.**  `A` has queued in `x` and has not been polled in `y`; the lines of both have
had the same supply and the same demands, but for the one of `A`. -/
structure Parallel (A : Addr) (x y : System P W) (b a : Fair W) (n : ℕ) (k : UInt32)
    (l₁ l₂ : List (Addr × ℕ)) : Prop where
  left : Inv x b
  right : Inv y a
  left_open : b.closed = false
  right_open : a.closed = false
  left_serves : b.Serves n (l₁ ++ (A, k.toNat) :: l₂)
  right_serves : a.Serves n (l₁ ++ l₂)
  not_mem : A ∉ l₁.map Prod.fst ∧ A ∉ l₂.map Prod.fst
  sizes : b.sizes = a.sizes
  size : b.sizes.get? A = some k
  polled : 0 < (x.sem.history.track A).firstPoll ∧ (x.sem.history.track A).finished = false
  unpolled : ∀ i, i ≠ A → (x.Unpolled i ↔ y.Unpolled i)
  total : x.total = y.total

variable {k : UInt32} {l₁ l₂ : List (Addr × ℕ)}

/-- The size of a future is that of its request. -/
theorem Inv.numPermits (h : Inv s a) (i : Addr) :
    (s.sem.inner.acquires.get? i).map Acquire.numPermits = a.sizes.get? i := by
  rw [Fair.sizes, Store.get?_map, h.models.get?_eq, Option.map_map]
  rfl

/-- Whether another client may make a call depends on the sizes of the futures, and on which have
been polled. -/
theorem others_transfer (hx : Inv x b) (hy : Inv y a) (hsizes : b.sizes = a.sizes)
    (hunpolled : ∀ i, i ≠ A → (x.Unpolled i ↔ y.Unpolled i)) (hc : x.Others A c)
    (hallowed : x.Allowed c) : y.Others A c ∧ y.Allowed c := by
  have hsize : ∀ i, (y.sem.inner.acquires.get? i).map Acquire.numPermits =
      (x.sem.inner.acquires.get? i).map Acquire.numPermits := fun i => by
    rw [hx.numPermits, hy.numPermits, hsizes]
  cases c with
  | addPermits m => exact ⟨trivial, trivial⟩
  | acquireMany i m =>
    have hnone := hsize i
    rw [show x.sem.inner.acquires.get? i = none from hallowed, Option.map_none,
      Option.map_eq_none_iff] at hnone
    exact ⟨trivial, hnone⟩
  | poll i cx =>
    obtain ⟨hiA, h0, hpos⟩ := hc
    have h0' := (hunpolled i hiA).mp h0
    obtain ⟨f, hf⟩ := Option.isSome_iff_exists.mp hallowed.1
    have hsome := hsize i
    rw [hf, Option.map_some] at hsome
    obtain ⟨f', hf', hnum⟩ := Option.map_eq_some_iff.mp hsome
    obtain ⟨-, -, hnew⟩ := hy.models.chronicle.fresh i _ (hy.get? hf') h0'
    refine ⟨⟨hiA, h0', fun f'' hf'' => ?_⟩, ?_, ?_⟩
    · obtain rfl := Option.some.inj (hf'.symm.trans hf'')
      rw [hnum]
      exact hpos f hf
    · rw [hf']
      rfl
    · rw [hnew]
      rfl
  | _ => exact hc.elim

namespace Parallel

theorem left_clients (h : Parallel A x y b a n k l₁ l₂) (hc : y.Others A c)
    (hallowed : y.Allowed c) :
    x.Others A c ∧ x.Allowed c :=
  others_transfer h.right h.left h.sizes.symm (fun i hi => (h.unpolled i hi).symm) hc hallowed

theorem right_clients (h : Parallel A x y b a n k l₁ l₂) (hc : x.Others A c)
    (hallowed : x.Allowed c) : y.Others A c ∧ y.Allowed c :=
  others_transfer h.left h.right h.sizes h.unpolled hc hallowed

/-- **The same call in both runs** returns in both, and keeps them parallel. -/
theorem next (hP : ∀ n : UInt32, n.toNat ≤ Inner.maxPermits P) (h : Parallel A x y b a n k l₁ l₂)
    (hcx : x.Others A c) (hax : x.Allowed c) (hcy : y.Others A c) (hay : y.Allowed c)
    (hmax : y.total + c.amount ≤ Inner.maxPermits P) :
    ∃ x' y' b' a', OthersStep A x c x' ∧ OthersStep A y c y' ∧
      Parallel A x' y' b' a' (n + c.amount) k l₁ (l₂ ++ c.demand a.sizes) := by
  have hmax' : x.total + c.amount ≤ Inner.maxPermits P := h.total ▸ hmax
  obtain ⟨o, x', b', hx, hx', hbopen, hbserves, hbsizes, hxtotal⟩ :=
    others_spec hP h.left h.left_open h.left_serves hcx hax hmax'
  obtain ⟨o', y', a', hy, hy', haopen, haserves, hasizes, hytotal⟩ :=
    others_spec hP h.right h.right_open h.right_serves hcy hay hmax
  -- the call is not about `A`
  have htarget : c.target ≠ some A := by
    intro hA
    cases c with
    | acquireMany i m =>
      obtain rfl := Option.some.inj hA
      have hsize := h.left.numPermits i
      rw [show x.sem.inner.acquires.get? i = none from hax, h.size] at hsize
      cases hsize
    | poll i cx => exact hcx.1 (Option.some.inj hA)
    | _ => cases hA
  have hdemand : A ∉ (c.demand a.sizes).map Prod.fst := by
    cases c with
    | poll i cx => exact fun hA => hcx.1 (List.mem_singleton.mp hA).symm
    | _ => exact List.not_mem_nil
  have hxframe := (others_frame hcx hx).2
  have hyframe := (others_frame hcy hy).2
  refine ⟨x', y', b', a', ⟨hcx, o, ⟨hax, hx⟩, hmax'⟩, ⟨hcy, o', ⟨hay, hy⟩, hmax⟩,
    hx', hy', hbopen, haopen, ?_, ?_, ⟨h.not_mem.1, ?_⟩, ?_, ?_, ?_, fun i hi => ?_, ?_⟩
  · rw [h.sizes] at hbserves
    rw [List.append_assoc, List.cons_append] at hbserves
    exact hbserves
  · rw [List.append_assoc] at haserves
    exact haserves
  · rw [List.map_append, List.mem_append, not_or]
    exact ⟨h.not_mem.2, hdemand⟩
  · rw [hbsizes, hasizes, h.sizes]
  · rw [hbsizes]
    cases c with
    | acquireMany i m =>
      have hne : A ≠ i := fun hA => htarget (congrArg some hA.symm)
      exact (Store.get?_insert_of_ne _ _ hne).trans h.size
    | _ => exact h.size
  · rw [hxframe A htarget]
    exact h.polled
  · by_cases htarget' : c.target = some i
    · rw [unpolled_target h.left.models.chronicle.clock_pos hx htarget',
        unpolled_target h.right.models.chronicle.clock_pos hy htarget']
    · rw [Unpolled, Unpolled, hxframe i htarget', hyframe i htarget']
      exact h.unpolled i hi
  · rw [hxtotal, hytotal, h.total]

/-- A call in the run without `A` can be made in the other run, -/
theorem step_left (hP : ∀ n : UInt32, n.toNat ≤ Inner.maxPermits P) {t : System P W}
    (h : Parallel A x y b a n k l₁ l₂) (hstep : OthersStep A y c t) :
    ∃ x' b' a', OthersStep A x c x' ∧
      Parallel A x' t b' a' (n + c.amount) k l₁ (l₂ ++ c.demand a.sizes) := by
  obtain ⟨hc, o, ⟨hallowed, hres⟩, hmax⟩ := hstep
  obtain ⟨hcx, hax⟩ := h.left_clients hc hallowed
  obtain ⟨x', y', b', a', hx', ⟨-, o', ⟨-, hres'⟩, -⟩, hnext⟩ := h.next hP hcx hax hc hallowed hmax
  obtain ⟨-, rfl⟩ := Prod.mk.inj (Except.ok.inj (hres.symm.trans hres'))
  exact ⟨x', b', a', hx', hnext⟩

/-- and the other way round. -/
theorem step_right (hP : ∀ n : UInt32, n.toNat ≤ Inner.maxPermits P) {t : System P W}
    (h : Parallel A x y b a n k l₁ l₂) (hstep : OthersStep A x c t) :
    ∃ y' b' a', OthersStep A y c y' ∧
      Parallel A t y' b' a' (n + c.amount) k l₁ (l₂ ++ c.demand a.sizes) := by
  obtain ⟨hc, o, ⟨hallowed, hres⟩, hmax⟩ := hstep
  obtain ⟨hcy, hay⟩ := h.right_clients hc hallowed
  obtain ⟨x', y', b', a', ⟨-, o', ⟨-, hres'⟩, -⟩, hy', hnext⟩ :=
    h.next hP hc hallowed hcy hay (h.total ▸ hmax)
  obtain ⟨-, rfl⟩ := Prod.mk.inj (Except.ok.inj (hres.symm.trans hres'))
  exact ⟨y', b', a', hy', hnext⟩

end Parallel

/-- What a future still needs, read off the line. -/
theorem Inv.remaining_eq (h : Inv s a) (hopen : a.closed = false) (i : Addr) :
    s.remaining i = (a.sizes.get? i).map fun m =>
      if (s.sem.history.track i).firstPoll = 0 then m.toNat else owed a.line i := by
  have hc := h.models.chronicle
  rw [← h.numPermits, remaining, Option.map_map]
  refine Option.map_congr fun f hf => ?_
  have hr := h.get? hf
  dsimp only [Function.comp]
  by_cases h0 : (s.sem.history.track i).firstPoll = 0
  · obtain ⟨-, hneed, hnew⟩ := hc.fresh i _ hr h0
    rw [if_pos h0, hnew]
    exact hneed
  · rw [if_neg h0]
    by_cases hfin : (s.sem.history.track i).finished = true
    · -- it has got its permits, and is not in the line any more
      have hqueued : f.request.queued = false := by
        refine (hc.finished i _ hr hfin).2.resolve_right ?_
        rw [hopen]
        exact Bool.false_ne_true
      have hnot := h.models.sound.not_mem_of_not_queued hr hqueued
      rw [if_pos hfin, owed_of_not_mem (Fair.not_mem_keys hnot)]
    · have hqueued := (hc.unfinished i _ hr (Nat.pos_of_ne_zero h0) (Bool.not_eq_true _ ▸ hfin)).1
      rw [if_neg hfin, Fair.owed_line h.models.sound hopen hr hqueued]
      rfl

/-- **The drop of `A`** ends the difference. -/
theorem Parallel.drop (h : Parallel A x y b a n k l₁ l₂) :
    ∃ z, x.Step (.dropAcquire A, .unit) z ∧ NoTrace A z y := by
  obtain ⟨r, hr, hsize⟩ := Fair.exists_of_sizes h.size
  obtain ⟨f, hf, rfl⟩ := h.left.exists_future hr
  obtain ⟨hpolled, hfin⟩ := h.polled
  have hqueued := (h.left.models.chronicle.unfinished A _ hr hpolled hfin).1
  obtain ⟨z, hres, hz, -⟩ := dropAcquire_spec h.left hr
  have hclosed : (b.cancel A).closed = false := (Fair.closed_cancel b A).trans h.left_open
  have hserves : (b.cancel A).Serves n (l₁ ++ l₂) :=
    Fair.Serves.cancel h.left.models.sound h.left_open hr hqueued (hsize ▸ h.left_serves)
      h.not_mem.1 h.not_mem.2
  have hline : (b.cancel A).line = a.line := hserves.line.trans h.right_serves.line.symm
  have hhistory : z.sem.history = x.sem.history := by
    obtain ⟨sem, hsem, hz⟩ := bind_eq_ok.mp hres
    obtain rfl := Except.ok.inj hz
    exact Tracked.history_drop hsem
  refine ⟨z, ⟨?_, ?_⟩, ?_, ⟨a.waiting, ?_, h.right.models.refines.queue⟩, fun i hi => ?_⟩
  · show (x.sem.inner.acquires.get? A).isSome = true
    rw [hf]
    rfl
  · rw [exec, hres]
    rfl
  · rw [hz.models.refines.availablePermits, h.right.models.refines.availablePermits,
      hserves.available, h.right_serves.available]
  · rw [← Fair.keys_line a, ← hline, Fair.keys_line]
    exact hz.models.refines.queue
  · rw [hz.remaining_eq hclosed, h.right.remaining_eq h.right_open, Fair.sizes_cancel,
      Store.get?_erase_of_ne _ hi, h.sizes, hline, hhistory]
    have hunpolled := h.unpolled i hi
    unfold Unpolled at hunpolled
    simp only [hunpolled]

/-- **The first poll of `A`**, which returns `Pending`, starts the two runs. -/
theorem Parallel.start (h : Inv s a) (hopen : a.closed = false) (hfirst : s.Unpolled A) {cx : W}
    (hpoll : s.Step (.poll A cx, .polled .pending) t) :
    ∃ b k, Parallel A t s b a a.available k a.line [] := by
  have ha := h.models.sound
  obtain ⟨⟨hlive, hfin⟩, hexec⟩ := hpoll
  obtain ⟨r, hr⟩ := h.exists_request hlive
  obtain ⟨hqueued, hneed, -⟩ := h.models.chronicle.fresh A r hr hfirst
  obtain ⟨o, t', hres, ht, hmoves, ho⟩ := poll_spec h hr hfin cx
  rw [exec, hres] at hexec
  obtain ⟨hpending, rfl⟩ := Prod.mk.inj (Except.ok.inj hexec)
  obtain rfl := Output.polled.inj hpending
  obtain ⟨hforgotten, m, hhistory⟩ := poll_history hres
  -- it has not found enough permits
  have hlt : a.available < r.size.toNat := by
    have hpolled := Fair.polled cx hr
    generalize a.poll A cx = pa at hpolled ho
    cases hpolled with
    | closed _ => cases ho
    | collected _ _ _ => cases ho
    | waiting _ hq _ =>
      rw [hqueued] at hq
      cases hq
    | taken _ _ _ => cases ho
    | enqueued _ _ hlt => exact hlt
  have hnot : A ∉ a.line.map Prod.fst :=
    Fair.not_mem_keys (ha.not_mem_of_not_queued hr hqueued)
  have hserves := (Fair.Serves.self ha).poll ha hopen hr hqueued hneed (Nat.zero_lt_of_lt hlt) cx
  refine ⟨_, r.size, ht, h, (Fair.closed_poll a A cx).trans hopen, hopen, hserves, ?_,
    ⟨hnot, List.not_mem_nil⟩, Fair.sizes_poll a A cx, ?_, ?_, fun i hi => ?_, ?_⟩
  · rw [List.append_nil]
    exact .self ha
  · rw [Fair.sizes_poll]
    exact Fair.sizes_of_get? hr
  · rw [hhistory]
    refine ⟨firstPoll_pos h.models.chronicle.clock_pos cx m _, ?_⟩
    rw [s.sem.history.track_poll_self]
    rfl
  · rw [Unpolled, hhistory, s.sem.history.track_poll_of_ne hi]
    exact Iff.rfl
  · have := hmoves.balance
    omega

/-- **Cancelling leaves no trace.**  Let the first poll of `A` in a reachable open state `s` return
`Pending`.  Whatever the other clients do then, they can do the same without that poll; and when `A`
is dropped afterwards, both runs have come to the same. -/
theorem cancel_no_trace {p : ℕ} {es : List (Action W × Output)} {s s₁ : System .w64 W}
    (hp : p ≤ Inner.maxPermits .w64) (hrun : Run BoundedStep (System.new .w64 W p) es s)
    (hopen : s.sem.inner.isClosed = false) {A : Addr} (hfirst : s.Unpolled A) {cx : W}
    (hpoll : s.Step (.poll A cx, .polled .pending) s₁) (cs : List (Action W)) :
    ((∃ t, Run (OthersStep A) s cs t) ↔ ∃ s₂, Run (OthersStep A) s₁ cs s₂) ∧
      ∀ t s₂, Run (OthersStep A) s cs t → Run (OthersStep A) s₁ cs s₂ →
        ∃ s₃, s₂.Step (.dropAcquire A, .unit) s₃ ∧ NoTrace A s₃ t := by
  obtain ⟨a, h⟩ := bounded_inv toNat_le_maxPermits hp hrun
  have hopen' : a.closed = false := h.models.refines.isClosed ▸ hopen
  obtain ⟨b, k, hstart⟩ := Parallel.start h hopen' hfirst hpoll
  let R (x y : System .w64 W) : Prop := ∃ b a n k l₁ l₂, Parallel A x y b a n k l₁ l₂
  have hR : R s₁ s := ⟨b, a, _, k, _, _, hstart⟩
  refine ⟨⟨fun ⟨t, hrunt⟩ => ?_, fun ⟨s₂, hrun₂⟩ => ?_⟩, fun t s₂ hrunt hrun₂ => ?_⟩
  · obtain ⟨s₂, hrun₂, -⟩ := hrunt.simulate (R := fun y x => R x y)
      (fun y c y' x hxy hstep => by
        obtain ⟨b, a, n, k, l₁, l₂, hxy⟩ := hxy
        obtain ⟨x', b', a', hx', hnext⟩ := hxy.step_left toNat_le_maxPermits hstep
        exact ⟨x', hx', b', a', _, k, l₁, _, hnext⟩) hR
    exact ⟨s₂, hrun₂⟩
  · obtain ⟨t, hrunt, -⟩ := hrun₂.simulate (R := R)
      (fun x c x' y hxy hstep => by
        obtain ⟨b, a, n, k, l₁, l₂, hxy⟩ := hxy
        obtain ⟨y', b', a', hy', hnext⟩ := hxy.step_right toNat_le_maxPermits hstep
        exact ⟨y', hy', b', a', _, k, l₁, _, hnext⟩) hR
    exact ⟨t, hrunt⟩
  · obtain ⟨b, a, n, k, l₁, l₂, hend⟩ := hrun₂.together (R := R)
      (fun x c x' y y' hxy hx hy => by
        obtain ⟨b, a, n, k, l₁, l₂, hxy⟩ := hxy
        obtain ⟨x'', b', a', ⟨-, o, ⟨-, hres⟩, -⟩, hnext⟩ :=
          hxy.step_left toNat_le_maxPermits hy
        obtain ⟨-, o', ⟨-, hres'⟩, -⟩ := hx
        obtain ⟨-, rfl⟩ := Prod.mk.inj (Except.ok.inj (hres.symm.trans hres'))
        exact ⟨b', a', _, k, l₁, _, hnext⟩) hrunt hR
    exact hend.drop

/-- Make a call of another client, if it is allowed and does not fault. -/
def othersCall (A : Addr) (s : System P W) (c : Action W) : Option (System P W) :=
  if s.Others A c then (s.boundedCall c).map Prod.snd else none

theorem othersStep_of_othersCall (s : System P W) (c : Action W) (t : System P W)
    (h : s.othersCall A c = some t) : OthersStep A s c t := by
  unfold othersCall at h
  split_ifs at h with hc
  obtain ⟨⟨o, u⟩, hcall, rfl⟩ := Option.map_eq_some_iff.mp h
  exact ⟨hc, o, boundedStep_of_boundedCall s c o u hcall⟩

/-- The call returned `Poll::Pending`. -/
def isPending : Output → Bool
  | .polled r => r.isPending
  | _ => false

theorem eq_of_isPending : ∀ {o : Output}, isPending o = true → o = .polled .pending
  | .polled .pending, _ => rfl

/-- While one future waits, another one that would have been granted its permit at once waits
behind it. -/
theorem cancel_no_trace_behind : ∃ (s s₁ t s₂ s₃ : System .w64 ℕ) (cs : List (Action ℕ)),
    s.Step (.poll 7 5, .polled .pending) s₁ ∧ Run (OthersStep 7) s cs t ∧
      Run (OthersStep 7) s₁ cs s₂ ∧ t.remaining 9 = some 0 ∧ s₂.remaining 9 = some 1 ∧
      s₂.Step (.dropAcquire 7, .unit) s₃ ∧ NoTrace 7 s₃ t := by
  let cs : List (Action ℕ) := [.poll 9 6, .addPermits 1]
  have hcheck : ((replay System.boundedCall (System.new .w64 ℕ 1) [.acquireMany 7 3,
      .acquireMany 9 1]).bind fun r => (r.2.call (.poll 7 5)).bind fun r₁ =>
      (cs.foldlM (othersCall 7) r.2).bind fun t => (cs.foldlM (othersCall 7) r₁.2).map fun s₂ =>
        ((r.2.sem.inner.isClosed, (r.2.sem.history.track 7).firstPoll), isPending r₁.1,
          t.remaining 9, s₂.remaining 9)) =
      some ((false, 0), true, some 0, some 1) := by decide +kernel
  obtain ⟨⟨es, s⟩, hs, hcheck⟩ := Option.bind_eq_some_iff.mp hcheck
  obtain ⟨⟨o, s₁⟩, hs₁, hcheck⟩ := Option.bind_eq_some_iff.mp hcheck
  obtain ⟨t, ht, hcheck⟩ := Option.bind_eq_some_iff.mp hcheck
  obtain ⟨s₂, hs₂, hcheck⟩ := Option.map_eq_some_iff.mp hcheck
  simp only [Prod.mk.injEq] at hcheck
  obtain ⟨⟨hopen, hfirst⟩, hpending, hremaining, hremaining₂⟩ := hcheck
  have hpoll : s.Step (.poll 7 5, .polled .pending) s₁ := by
    have hstep := step_of_call _ _ _ _ hs₁
    rwa [eq_of_isPending hpending] at hstep
  have hrun := run_of_replay boundedStep_of_boundedCall hs
  have hrunt := run_of_foldlM othersStep_of_othersCall ht
  have hrun₂ := run_of_foldlM othersStep_of_othersCall hs₂
  obtain ⟨s₃, hdrop, htrace⟩ :=
    (cancel_no_trace (by decide) hrun hopen hfirst hpoll cs).2 t s₂ hrunt hrun₂
  exact ⟨s, s₁, t, s₂, s₃, cs, hpoll, hrunt, hrun₂, hremaining, hremaining₂, hdrop, htrace⟩

end System

end LocalSync.Semaphore
