/-
  How long a future waits for its permits.

  A queued future is served as soon as enough permits have come in for it and
  for everybody before it, and not earlier.  Nobody who comes later holds it up,
  whatever they ask for, and somebody before it who gives up brings it nearer by
  the whole request, whether the permits had been assigned or not.

  `Fair.outstanding` says how many permits have to come in, and `System.relief`
  what a call takes off them.  One call takes off exactly its relief
  (`outstanding_step`), so the future is served once the reliefs of a run have
  reached what was outstanding (`System.served_iff_relief`).

  Nor does everybody wait for everybody else.  As long as the oldest future asks
  for no more than all permits together, somebody who does not wait has some of
  them (`System.Inv.somebody_yields`), and when these give back what they have,
  the oldest future is served (`System.can_be_served`).

  Both are about 64-bit targets, where every request fits, and about runs that
  keep within the maximum: elsewhere a panic can stand in for the service.
-/
import LocalSync.Equiv.HandOut
import LocalSync.Equiv.Cancelling

namespace LocalSync.Semaphore

open Lib

variable {P : PointerWidth} {W : Type}

/-! ### The abstract semaphore -/

namespace Fair

variable {a b : Fair W} {i j : Addr} {n : ℕ} {r : Request W}

/-- What has to come in before the request at `i` is served. -/
def outstanding (a : Fair W) (i : Addr) : ℕ := upTo i a.line

/-- The request at `i` has queued, or is served. -/
def Standing (a : Fair W) (i : Addr) : Prop :=
  ∃ r, a.requests.get? i = some r ∧ (r.queued = true ∨ r.need = 0)

theorem keys_nodup (ha : a.Sound) : (a.line.map Prod.fst).Nodup := by
  rw [keys_line]
  exact ha.nodup

theorem line_split {u v : List Addr} (hsplit : a.waiting = u ++ j :: v) :
    a.line = (u.map fun k => (k, a.need k)) ++ (j, a.need j) :: v.map fun k => (k, a.need k) := by
  rw [line, hsplit, List.map_append, List.map_cons]

theorem keys_map (u : List Addr) : (u.map fun k => (k, a.need k)).map Prod.fst = u := by
  rw [List.map_map]
  exact List.map_id u

/-- Who waits, waits for something. -/
theorem mem_waiting_iff (ha : a.Sound) (i : Addr) : i ∈ a.waiting ↔ 0 < a.outstanding i := by
  constructor
  · intro hi
    obtain ⟨u, v, hsplit⟩ := List.append_of_mem hi
    obtain ⟨r, hr, -, hpos⟩ := ha.exists_of_mem hi
    rw [← need_of_get? hr] at hpos
    have hiu : i ∉ (u.map fun j => (j, a.need j)).map Prod.fst := by
      have hnd := ha.nodup
      rw [hsplit, List.nodup_append] at hnd
      rw [keys_map]
      exact fun hm => hnd.2.2 i hm i (List.mem_cons_self ..) rfl
    rw [outstanding, line_split hsplit]
    exact lt_of_lt_of_le hpos (le_upTo hiu)
  · intro hpos
    by_contra hi
    rw [outstanding, upTo_of_not_mem (not_mem_keys hi)] at hpos
    exact Nat.lt_irrefl 0 hpos

/-- Who stands and does not wait is served. -/
theorem Standing.need_eq_zero (h : a.Standing i) (ha : a.Sound) (hopen : a.closed = false)
    (hi : i ∉ a.waiting) : a.need i = 0 := by
  obtain ⟨r, hr, hq⟩ := h
  rw [need_of_get? hr]
  rcases hq with hq | hneed
  · by_contra hne
    exact hi ((ha.mem_waiting i).mpr ⟨hopen, r, hr, hq, Nat.pos_of_ne_zero hne⟩)
  · exact hneed

/-! #### Permits that come in -/

theorem outstanding_release (ha : a.Sound) (i : Addr) (n : ℕ) :
    (a.release n).outstanding i = a.outstanding i - n := by
  rw [outstanding, release, (line_handOut rfl ha.nodup).1]
  exact upTo_serve (keys_nodup ha) n

theorem Standing.release (h : a.Standing i) (ha : a.Sound) (n : ℕ) : (a.release n).Standing i := by
  obtain ⟨r, hr, hq⟩ := h
  obtain ⟨r', hr', -⟩ := exists_of_sizes (a := a.release n) (i := i) (n := r.size) (by
    rw [sizes_release]
    exact sizes_of_get? hr)
  obtain ⟨r₁, hr₁, hqueued, -, heq⟩ := exists_of_get?_handOut hr'
  obtain rfl := Option.some.inj (hr.symm.trans hr₁)
  refine ⟨r', hr', ?_⟩
  rcases hq with hq | hneed
  · exact Or.inl (hqueued.trans hq)
  · right
    rw [heq (ha.not_mem_of_served hr hneed)]
    exact hneed

/-! #### Other requests -/

theorem outstanding_acquire (ha : a.Sound) (hj : a.requests.get? j = none) (n : UInt32)
    (i : Addr) : (a.acquire j n).outstanding i = a.outstanding i := by
  have hline : (a.acquire j n).line = a.line :=
    ((Serves.self ha).acquire ha hj n).line.trans (Serves.self ha).line.symm
  rw [outstanding, outstanding, hline]

theorem Standing.acquire (h : a.Standing i) (hj : a.requests.get? j = none) (n : UInt32) :
    (a.acquire j n).Standing i := by
  obtain ⟨r, hr, hq⟩ := h
  have hij : i ≠ j := by
    rintro rfl
    rw [hj] at hr
    cases hr
  refine ⟨r, ?_, hq⟩
  rw [Fair.acquire, Store.get?_insert_of_ne _ _ hij]
  exact hr

/-- Changing a request without its need changes nobody's place in the line. -/
theorem line_modify {f : Request W → Request W} (hf : ∀ r : Request W, (f r).need = r.need) :
    ({ a with requests := a.requests.modify j f } : Fair W).line = a.line := by
  refine line_congr rfl fun k _ => ?_
  by_cases hkj : k = j
  · subst hkj
    rw [need, need, Store.get?_modify_self]
    cases a.requests.get? k <;> simp [hf]
  · exact need_modify_of_ne rfl hkj

theorem Standing.modify (h : a.Standing i) {f : Request W → Request W}
    (hf : ∀ r, a.requests.get? j = some r → r.queued = true ∨ r.need = 0 →
      (f r).queued = true ∨ (f r).need = 0) :
    ({ a with requests := a.requests.modify j f } : Fair W).Standing i := by
  obtain ⟨r, hr, hq⟩ := h
  by_cases hij : i = j
  · subst hij
    refine ⟨f r, ?_, hf r hr hq⟩
    rw [Store.get?_modify_self, hr]
    rfl
  · refine ⟨r, ?_, hq⟩
    rw [Store.get?_modify_of_ne _ _ hij]
    exact hr

/-- **Polling** a request, be it that at `i` or another one, takes nothing off and adds nothing. -/
theorem outstanding_poll [Waker W] (h : a.Standing i) (ha : a.Sound)
    (hr : a.requests.get? j = some r) (hnew : r.queued = false → r.need = r.size.toNat) (cx : W) :
    (a.poll j cx).2.outstanding i = a.outstanding i ∧ (a.poll j cx).2.Standing i := by
  have hpolled := Fair.polled cx hr
  have hserves := fun hopen hq hneed hpos =>
    (Serves.self ha).poll ha hopen hr hq hneed hpos cx
  generalize a.poll j cx = p at hpolled hserves
  unfold outstanding
  cases hpolled with
  | closed => exact ⟨rfl, h⟩
  | collected _ _ hneed =>
    refine ⟨congrArg (upTo i) (line_modify fun _ => rfl), h.modify ?_⟩
    intro r' hr' _
    obtain rfl := Option.some.inj (hr.symm.trans hr')
    exact Or.inr hneed
  | waiting =>
    refine ⟨congrArg (upTo i) (line_modify (Request.need_register cx)), h.modify ?_⟩
    intro r' _ hq
    rwa [Request.queued_register, Request.need_register]
  | taken => exact ⟨rfl, h⟩
  | enqueued hopen hq hlt =>
    -- who joins the queue now did not stand before
    have hneed := hnew hq
    have hji : j ≠ i := by
      rintro rfl
      obtain ⟨r', hr', hstands⟩ := h
      obtain rfl := Option.some.inj (hr.symm.trans hr')
      rw [hq, hneed] at hstands
      simp only [Bool.false_eq_true, false_or] at hstands
      omega
    have hline := (hserves hopen hq hneed (by omega)).line
    have hkeys : ((a.line ++ [(j, r.size.toNat)]).map Prod.fst).Nodup := by
      rw [List.map_append, List.map_singleton, keys_line]
      exact List.nodup_append.mpr ⟨ha.nodup, List.nodup_singleton j, by
        intro k hk m hm
        rw [List.mem_singleton.mp hm]
        rintro rfl
        exact ha.not_mem_of_not_queued hr hq hk⟩
    refine ⟨?_, h.modify ?_⟩
    · show upTo i (a.enqueue j cx).line = _
      rw [hline, upTo_serve hkeys, upTo_snoc hji, ← upTo_serve (keys_nodup ha),
        ← (Serves.self ha).line]
    · intro r' _ _
      left
      rw [Request.queued_register]

/-- **Giving up** another request `j` takes its whole size off what `i` waits for, if it was before
`i` in the line or has been served already, and nothing if it was behind `i`. -/
theorem outstanding_cancel [Waker W] {h : History W} (ha : a.Sound) (hc : Chronicle a h)
    (hopen : a.closed = false) (hr : a.requests.get? j = some r) (hji : j ≠ i) :
    (a.cancel j).outstanding i = a.outstanding i -
      if r.queued = true ∧ (h.track j).firstPoll ≤ (h.track i).firstPoll then r.size.toNat
      else 0 := by
  have hcancel : (a.cancel j).outstanding i = upTo i (without j a.line) - r.held := by
    rw [cancel, outstanding_release (ha.remove j), outstanding, line_remove ha, hr]
    rfl
  have hle := ha.need_le j r hr
  rw [hcancel]
  by_cases hi : i ∈ a.waiting
  swap
  · -- nothing is outstanding
    have hi' : i ∉ (without j a.line).map Prod.fst := by
      intro hm
      rw [← line_remove ha, keys_line] at hm
      exact hi (List.mem_of_mem_erase hm)
    rw [outstanding, upTo_of_not_mem hi', upTo_of_not_mem (not_mem_keys hi), Nat.zero_sub,
      Nat.zero_sub]
  by_cases hj : j ∈ a.waiting
  · obtain ⟨r', hr', hq, -⟩ := ha.exists_of_mem hj
    obtain rfl := Option.some.inj (hr.symm.trans hr')
    obtain ⟨u, v, hsplit⟩ := List.append_of_mem hj
    have hnd := ha.nodup
    have horder := hc.order
    have hwhole := ha.whole j
    rw [hsplit] at hi hnd horder hwhole
    obtain ⟨-, hndv, hdisj⟩ := List.nodup_append.mp hnd
    have hju : j ∉ (u.map fun k => (k, a.need k)).map Prod.fst := by
      rw [keys_map]
      exact fun hm => hdisj j hm j (List.mem_cons_self ..) rfl
    have hjv : j ∉ (v.map fun k => (k, a.need k)).map Prod.fst := by
      rw [keys_map]
      exact (List.nodup_cons.mp hndv).1
    rw [outstanding, line_split hsplit, without_middle hju hjv, Request.held, if_pos hq]
    rcases List.mem_append.mp hi with hiu | hiv
    · -- `j` is behind `i`, and has not received anything
      have hlt := (List.pairwise_append.mp horder).2.2 i hiu j (List.mem_cons_self ..)
      have htail : j ∈ (u ++ j :: v).tail := by
        rw [List.tail_append_of_ne_nil (List.ne_nil_of_mem hiu)]
        exact List.mem_append_right _ (List.mem_cons_self ..)
      have hneed := hwhole htail r hr
      have hkeys : i ∈ (u.map fun k => (k, a.need k)).map Prod.fst := by rwa [keys_map]
      rw [upTo_append_left hkeys, upTo_append_left hkeys, if_neg (by omega)]
      omega
    · -- `j` is before `i`
      have hiv : i ∈ v := (List.mem_cons.mp hiv).resolve_left (Ne.symm hji)
      have hiu : i ∉ (u.map fun k => (k, a.need k)).map Prod.fst := by
        rw [keys_map]
        exact fun hm => hdisj i hm i (List.mem_cons_of_mem j hiv) rfl
      have hkeys : i ∈ (v.map fun k => (k, a.need k)).map Prod.fst := by rwa [keys_map]
      have hlt := (List.pairwise_cons.mp (List.pairwise_append.mp horder).2.1).1 i hiv
      rw [upTo_middle hji hiu hkeys, need_of_get? hr, if_pos ⟨hq, hlt.le⟩]
      omega
  · rw [without_of_not_mem (not_mem_keys hj), outstanding, Request.held]
    by_cases hq : r.queued = true
    · -- it has been served: it came before `i`, or asked for nothing
      have hneed : r.need = 0 := by
        by_contra hne
        exact hj ((ha.mem_waiting j).mpr ⟨hopen, r, hr, hq, Nat.pos_of_ne_zero hne⟩)
      rw [if_pos hq, hneed]
      split_ifs with hcond
      · rfl
      · have hsize : ¬ 0 < r.size.toNat := by
          intro hpos
          apply hj
          apply hc.first_come i hi j r hr hpos
          rw [not_and, Nat.not_le] at hcond
          exact hcond hq
        omega
    · rw [if_neg hq, if_neg fun hcond => hq hcond.1]

theorem Standing.cancel (h : a.Standing i) (ha : a.Sound) (hji : j ≠ i) :
    (a.cancel j).Standing i := by
  obtain ⟨r, hr, hq⟩ := h
  apply Standing.release _ (ha.remove j)
  refine ⟨r, ?_, hq⟩
  rw [Fair.remove, Store.get?_erase_of_ne _ (Ne.symm hji)]
  exact hr

end Fair

/-! ### The system -/

/-- The call does not drop the future at `i`, and does not close the semaphore. -/
def Action.Spares (i : Addr) : Action W → Prop
  | .dropAcquire j => j ≠ i
  | .close => False
  | _ => True

instance (i : Addr) : (c : Action W) → Decidable (c.Spares i)
  | .dropAcquire j => inferInstanceAs (Decidable (j ≠ i))
  | .close => .isFalse id
  | .addPermits _ | .acquireMany _ _ | .poll _ _ | .tryAcquireMany _ | .dropPermit _ | .forget _ =>
    .isTrue trivial

/-- What has to come in before the future at `i` is served, when `q` is the wait list: what those
before it in the list still need, and what it needs itself. -/
def Inner.outstanding (s : Inner P W) (q : List Addr) (i : Addr) : ℕ :=
  upTo i (q.map fun j => (j, s.need j))

namespace System

/-- What a call takes off the permits that the future at `i` waits for: the permits that it adds or
gives back, and the whole request of another future that was polled before `i` and gives up. -/
def relief (i : Addr) (s : System P W) : Action W → ℕ
  | .addPermits n => n
  | .dropPermit p => (s.permits.get? p).elim 0 UInt32.toNat
  | .dropAcquire j => (s.sem.inner.acquires.get? j).elim 0 fun f =>
    if f.queued = true ∧
      (s.sem.history.track j).firstPoll ≤ (s.sem.history.track i).firstPoll
    then f.numPermits.toNat else 0
  | _ => 0

variable [Waker W] {s t : System P W} {a b : Fair W} {i : Addr} {n : ℕ} {q : List Addr}

/-- A step within the maximum that spares the future at `i`. -/
def SparingStep (i : Addr) (s : System P W) (e : Action W × Output) (t : System P W) : Prop :=
  s.BoundedStep e t ∧ e.1.Spares i

theorem Inv.outstanding_eq (h : Inv s a) (i : Addr) :
    a.outstanding i = s.sem.inner.outstanding a.waiting i := by
  rw [Fair.outstanding, Fair.line, Inner.outstanding]
  exact congrArg (upTo i) (List.map_congr_left fun j _ => by rw [h.models.refines.need_eq])

/-- **One call** takes off exactly its relief. -/
theorem outstanding_step (hP : ∀ n : UInt32, n.toNat ≤ Inner.maxPermits P) (h : Inv s a)
    (hopen : a.closed = false) (hstands : a.Standing i) (c : Action W) (hc : s.Allowed c)
    (hspares : c.Spares i) (hmax : s.total + c.amount ≤ Inner.maxPermits P) :
    ∃ o t b, s.exec c = .ok (o, t) ∧ Inv t b ∧ b.closed = false ∧ b.Standing i ∧
      b.outstanding i = a.outstanding i - s.relief i c := by
  have ha := h.models.sound
  have hrelease : ∀ n, (a.release n).closed = false := fun n => by
    rw [Fair.closed_release]
    exact hopen
  cases c with
  | addPermits n =>
    obtain ⟨t, hres, ht, -⟩ := addPermits_spec (n := n) h hmax
    exact ⟨_, t, _, by rw [exec, hres]; rfl, ht, hrelease n, hstands.release ha n,
      Fair.outstanding_release ha i n⟩
  | acquireMany j n =>
    have hnone : a.requests.get? j = none := by rw [h.models.get?_eq, hc]; rfl
    exact ⟨_, _, _, rfl, (acquireMany_spec hP h hc n).1, hopen, hstands.acquire hnone n,
      Fair.outstanding_acquire ha hnone n i⟩
  | poll j cx =>
    obtain ⟨r, hr⟩ := h.exists_request hc.1
    obtain ⟨o, t, hres, ht, -⟩ := poll_spec h hr hc.2 cx
    obtain ⟨hout, hst⟩ := Fair.outstanding_poll hstands ha hr (h.models.need_eq hr hc.2) cx
    refine ⟨_, t, _, by rw [exec, hres]; rfl, ht, ?_, hst, hout⟩
    rw [Fair.closed_poll, hopen]
  | dropAcquire j =>
    obtain ⟨f, hf⟩ := Option.isSome_iff_exists.mp hc
    have hr := h.get? hf
    obtain ⟨t, hres, ht, -⟩ := dropAcquire_spec h hr
    refine ⟨_, t, _, by rw [exec, hres]; rfl, ht, ?_, hstands.cancel ha hspares, ?_⟩
    · rw [Fair.cancel, Fair.closed_release]
      exact hopen
    · rw [Fair.outstanding_cancel ha h.models.chronicle hopen hr hspares, relief, hf]
      rfl
  | tryAcquireMany n =>
    obtain ⟨o, t, hres, ht, -⟩ := tryAcquireMany_spec hP h n
    have hsame : (a.tryAcquire n).2.waiting = a.waiting ∧
        (a.tryAcquire n).2.requests = a.requests := by
      unfold Fair.tryAcquire
      split_ifs <;> exact ⟨rfl, rfl⟩
    refine ⟨_, t, _, by rw [exec, hres]; rfl, ht, ?_, ?_, ?_⟩
    · rw [Fair.closed_tryAcquire, hopen]
    · rw [Fair.Standing, hsame.2]
      exact hstands
    · refine congrArg (upTo i) (Fair.line_congr hsame.1 fun k _ => ?_)
      rw [Fair.need, Fair.need, hsame.2]
  | dropPermit p =>
    obtain ⟨m, hp⟩ := Option.isSome_iff_exists.mp hc
    obtain ⟨t, hres, ht, -⟩ := dropPermit_spec h hp
    refine ⟨_, t, _, by rw [exec, hres]; rfl, ht, hrelease _, hstands.release ha _, ?_⟩
    rw [Fair.outstanding_release ha, relief, hp]
    rfl
  | forget p =>
    obtain ⟨m, hp⟩ := Option.isSome_iff_exists.mp hc
    obtain ⟨t, hres, ht, -⟩ := forget_spec h hp
    exact ⟨_, t, _, by rw [exec, hres]; rfl, ht, hrelease 0, hstands.release ha 0,
      Fair.outstanding_release ha i 0⟩
  | close => exact hspares.elim

/-- **A future is served exactly when enough has come in.**  From a state in which the future at `i`
waits, `n` is the sum of the reliefs of the calls made since, none of which has dropped the future
or closed the semaphore. -/
theorem served_iff_relief {p : ℕ} {es fs : List (Action W × Output)} {s t : System .w64 W}
    (hp : p ≤ Inner.maxPermits .w64) (hrun : Run BoundedStep (System.new .w64 W p) es s)
    (hq : s.sem.inner.WaitList q) (hi : i ∈ q)
    (hrun' : Run (metered (SparingStep i) fun s e => s.relief i e.1) (s, 0) fs (t, n)) :
    ∃ q', t.sem.inner.WaitList q' ∧
      t.sem.inner.outstanding q' i = s.sem.inner.outstanding q i - n ∧
      (i ∉ q' ↔ s.sem.inner.outstanding q i ≤ n) ∧ (i ∉ q' → t.sem.inner.need i = 0) := by
  obtain ⟨a, h⟩ := bounded_inv toNat_le_maxPermits hp hrun
  obtain rfl : q = a.waiting := hq.unique h.models.refines.queue
  have hstands : a.Standing i := by
    obtain ⟨r, hr, hqueued, -⟩ := h.models.sound.exists_of_mem hi
    exact ⟨r, hr, Or.inl hqueued⟩
  have key : ∃ b, Inv t b ∧ b.closed = false ∧ b.Standing i ∧
      b.outstanding i = a.outstanding i - n := by
    refine hrun'.invariant (I := fun u => ∃ b, Inv u.1 b ∧ b.closed = false ∧ b.Standing i ∧
      b.outstanding i = a.outstanding i - u.2) ?_ ⟨a, h, h.models.sound.open_of_mem hi, hstands,
        (Nat.sub_zero _).symm⟩
    rintro ⟨s, m⟩ ⟨c, o⟩ ⟨t, m'⟩ ⟨b, hb, hopen, hst, hout⟩ ⟨⟨⟨⟨hc, hres⟩, hmax⟩, hspares⟩, hm⟩
    obtain ⟨o', t', b', hres', hb', hopen', hst', hout'⟩ :=
      outstanding_step toNat_le_maxPermits hb hopen hst c hc hspares hmax
    obtain ⟨-, rfl⟩ := Prod.mk.inj (Except.ok.inj (hres.symm.trans hres'))
    refine ⟨b', hb', hopen', hst', ?_⟩
    rw [hout', hout, Nat.sub_sub]
    exact congrArg _ hm.symm
  obtain ⟨b, hb, hopen, hst, hout⟩ := key
  have hmem := Fair.mem_waiting_iff hb.models.sound i
  rw [hout, h.outstanding_eq] at hmem
  refine ⟨b.waiting, hb.models.refines.queue, ?_, ?_, fun hni => ?_⟩
  · rw [← hb.outstanding_eq, hout, h.outstanding_eq]
  · rw [hmem]
    omega
  · rw [← hb.models.refines.need_eq]
    exact hst.need_eq_zero hb.models.sound hopen hni

/-- The future at the end of the list is the oldest waiter. -/
theorem oldest_of_tail {p : ℕ} {es : List (Action W × Output)} {s : System .w64 W}
    (hp : p ≤ Inner.maxPermits .w64) (hrun : Run BoundedStep (System.new .w64 W p) es s)
    (htail : s.sem.inner.waiters.queue.tail = some i) : ∃ q, s.sem.inner.WaitList (i :: q) := by
  obtain ⟨a, h⟩ := bounded_inv toNat_le_maxPermits hp hrun
  have hqueue : s.sem.inner.WaitList a.waiting := h.models.refines.queue
  have hhead : a.waiting.head? = some i := by
    rw [← List.getLast?_reverse, ← htail]
    exact h.models.refines.queue.tail_eq.symm
  obtain ⟨q, hq⟩ := List.head?_eq_some_iff.mp hhead
  exact ⟨q, hq ▸ hqueue⟩

/-- Make a call that spares the future at `i`, and add up its relief. -/
def sparingCall (i : Addr) (x : System P W × ℕ) (c : Action W) :
    Option (Output × (System P W × ℕ)) :=
  if c.Spares i then (x.1.boundedCall c).map fun r => (r.1, r.2, x.2 + x.1.relief i c) else none

theorem step_of_sparingCall (x : System P W × ℕ) (c : Action W) (o : Output)
    (y : System P W × ℕ) (h : sparingCall i x c = some (o, y)) :
    metered (SparingStep i) (fun s e => s.relief i e.1) x (c, o) y := by
  unfold sparingCall at h
  split_ifs at h with hspares
  obtain ⟨⟨o', t⟩, hcall, heq⟩ := Option.map_eq_some_iff.mp h
  obtain ⟨rfl, rfl⟩ := Prod.mk.inj heq
  exact ⟨⟨boundedStep_of_boundedCall _ _ _ _ hcall, hspares⟩, rfl⟩

/-- A request for three permits is served by two that are added and one that another client, who
has come later, gives back. -/
theorem served_iff_relief_three : ∃ (es fs : List (Action ℕ × Output)) (s t : System .w64 ℕ)
    (q q' : List Addr), Run BoundedStep (System.new .w64 ℕ 1) es s ∧ s.sem.inner.WaitList (7 :: q) ∧
      Run (metered (SparingStep 7) fun s e => s.relief 7 e.1) (s, 0) fs (t, 3) ∧
      t.sem.inner.WaitList q' ∧
      t.sem.inner.outstanding q' 7 = s.sem.inner.outstanding (7 :: q) 7 - 3 ∧
      (7 ∉ q' ↔ s.sem.inner.outstanding (7 :: q) 7 ≤ 3) ∧ (7 ∉ q' → t.sem.inner.need 7 = 0) := by
  have hcheck : (replay System.boundedCall (System.new .w64 ℕ 1) [.tryAcquireMany 1,
      .acquireMany 7 3, .poll 7 5]).bind (fun r => (replay (sparingCall 7) (r.2, 0)
        [.acquireMany 9 1, .addPermits 2, .poll 9 6, .dropAcquire 9, .dropPermit 1]).map
        fun r' => (r.2.sem.inner.waiters.queue.tail, r'.2.2)) = some (some 7, 3) := by
    decide +kernel
  obtain ⟨⟨es, s⟩, hres, hcheck⟩ := Option.bind_eq_some_iff.mp hcheck
  obtain ⟨⟨fs, t, n⟩, hres', heq⟩ := Option.map_eq_some_iff.mp hcheck
  obtain ⟨htail, hn⟩ := Prod.mk.inj heq
  have hrun := run_of_replay boundedStep_of_boundedCall hres
  have hrun' := run_of_replay step_of_sparingCall hres'
  obtain ⟨q, hq⟩ := oldest_of_tail (by decide) hrun htail
  subst hn
  obtain ⟨q', hserved⟩ := served_iff_relief (by decide) hrun hq (List.mem_cons_self ..) hrun'
  exact ⟨es, fs, s, t, q, q', hrun, hq, hrun', hserved⟩

/-! ### No deadlock -/

/-- The call gives permits back: it drops a guard, or a future that does not wait. -/
def Yields (s : System P W) : Action W → Prop
  | .dropPermit _ => True
  | .dropAcquire j => s.sem.inner.need j = 0
  | _ => False

/-- A step by somebody who does not wait, and gives back what it has. -/
def YieldStep (s : System P W) (e : Action W × Output) (t : System P W) : Prop :=
  s.BoundedStep e t ∧ s.Yields e.1

/-- **Somebody yields.**  While the oldest future `i` waits, there is a guard or a served future
with permits that `i` is waiting for, unless `i` asks for more than there is. -/
theorem Inv.somebody_yields (h : Inv s a) (hq : a.waiting = i :: q) {k : UInt32}
    (hsize : a.sizes.get? i = some k) (hk : k.toNat ≤ s.total) :
    ∃ c, s.Allowed c ∧ s.Yields c ∧ c.Spares i ∧ c.amount = 0 ∧ 0 < s.relief i c := by
  have ha := h.models.sound
  have hc := h.models.chronicle
  have hi : i ∈ a.waiting := hq ▸ List.mem_cons_self ..
  have hopen := ha.open_of_mem hi
  obtain ⟨r, hr, hqueued, hpos⟩ := ha.exists_of_mem hi
  obtain ⟨r', hr', hsize⟩ := Fair.exists_of_sizes hsize
  obtain rfl := Option.some.inj (hr.symm.trans hr')
  by_cases hguards : s.permits.sum UInt32.toNat = 0
  swap
  · obtain ⟨p, n, hp, hn⟩ := Store.exists_of_sum_ne_zero hguards
    refine ⟨.dropPermit p, ?_, trivial, trivial, rfl, ?_⟩
    · rw [Allowed, hp]
      rfl
    · rw [relief, hp]
      exact Nat.pos_of_ne_zero hn
  -- everything is in the requests, and the oldest one has not got all of it
  have htotal := total_eq h.models
  have havailable : a.available = 0 := ha.exhausted (List.ne_nil_of_mem hi)
  have hinside := a.inside_eq hr
  have hheld : r.held < r.size.toNat := by
    have hle := ha.need_le i r hr
    rw [Request.held, if_pos hqueued]
    omega
  rw [← hsize] at hk
  obtain ⟨j, r', hr', hne⟩ := Store.exists_of_sum_ne_zero
    (s := a.requests.erase i) (f := Request.held) (by omega)
  have hji : j ≠ i := by
    rintro rfl
    rw [Store.get?_erase_self] at hr'
    cases hr'
  rw [Store.get?_erase_of_ne _ hji] at hr'
  -- who has received permits is the oldest one or has been served
  have hj : j ∉ a.waiting := by
    intro hm
    have htail : j ∈ a.waiting.tail := by
      rw [hq] at hm ⊢
      exact (List.mem_cons.mp hm).resolve_left hji
    apply hne
    rw [Request.held, ha.whole j htail r' hr', Nat.sub_self, ite_self]
  obtain ⟨hqueued', hsize'⟩ : r'.queued = true ∧ 0 < r'.size.toNat := by
    unfold Request.held at hne
    by_cases hq' : r'.queued = true
    · rw [if_pos hq'] at hne
      exact ⟨hq', by omega⟩
    · rw [if_neg hq'] at hne
      exact absurd rfl hne
  have hneed : r'.need = 0 := by
    by_contra hpos'
    exact hj ((ha.mem_waiting j).mpr ⟨hopen, r', hr', hqueued', Nat.pos_of_ne_zero hpos'⟩)
  obtain ⟨f, hf, hreq⟩ := h.exists_future hr'
  have hnot : ¬ (s.sem.history.track i).firstPoll < (s.sem.history.track j).firstPoll :=
    fun hlt => hj (hc.first_come i hi j r' hr' hsize' hlt)
  have hfirst := Nat.le_of_not_lt hnot
  refine ⟨.dropAcquire j, ?_, ?_, hji, rfl, ?_⟩
  · rw [Allowed, hf]
    rfl
  · show s.sem.inner.need j = 0
    rw [← h.models.refines.need_eq, Fair.need_of_get? hr']
    exact hneed
  · have hqf : f.queued = true := by
      rw [← hqueued', ← hreq]
      rfl
    have hnf : 0 < f.numPermits.toNat := by
      rw [← hreq] at hsize'
      exact hsize'
    rw [relief, hf, Option.elim_some, if_pos ⟨hqf, hfirst⟩]
    exact hnf

/-- **One yield** loses no permits, and leaves the oldest future where it is or serves it. -/
theorem yield_step (h : Inv s a) (hopen : a.closed = false) (hstands : a.Standing i) {c : Action W}
    (hc : s.Allowed c) (hy : s.Yields c) (hspares : c.Spares i) :
    ∃ o t b, s.exec c = .ok (o, t) ∧ Inv t b ∧ b.closed = false ∧ b.Standing i ∧
      b.outstanding i = a.outstanding i - s.relief i c ∧ b.waiting <:+ a.waiting ∧
      b.sizes.get? i = a.sizes.get? i ∧ t.total = s.total := by
  have ha := h.models.sound
  have hsuffix : ∀ {a : Fair W}, a.Sound → ∀ n, (a.release n).waiting <:+ a.waiting := by
    intro a ha n
    rw [← Fair.keys_line, ← a.keys_line, Fair.release, (Fair.line_handOut rfl ha.nodup).1]
    exact serve_suffix n a.line
  cases c with
  | dropPermit p =>
    obtain ⟨m, hp⟩ := Option.isSome_iff_exists.mp hc
    obtain ⟨t, hres, ht, hmoves⟩ := dropPermit_spec h hp
    have hforgotten : t.forgotten = s.forgotten := by
      rw [dropPermit, hp] at hres
      obtain ⟨sem, -, hres⟩ := bind_eq_ok.mp hres
      obtain rfl := Except.ok.inj hres
      rfl
    have hbalance := hmoves.balance
    refine ⟨_, t, _, by rw [exec, hres]; rfl, ht, ?_, hstands.release ha _, ?_, hsuffix ha _, ?_,
      by omega⟩
    · rw [Fair.closed_release]
      exact hopen
    · rw [Fair.outstanding_release ha, relief, hp]
      rfl
    · rw [Fair.sizes_release]
  | dropAcquire j =>
    obtain ⟨f, hf⟩ := Option.isSome_iff_exists.mp hc
    have hr := h.get? hf
    have hneed : f.request.need = 0 := by
      rw [← Fair.need_of_get? hr, h.models.refines.need_eq]
      exact hy
    obtain ⟨t, hres, ht, hmoves⟩ := dropAcquire_spec h hr
    have hforgotten : t.forgotten = s.forgotten := by
      obtain ⟨sem, -, hres⟩ := bind_eq_ok.mp hres
      obtain rfl := Except.ok.inj hres
      rfl
    have hbalance := hmoves.balance
    refine ⟨_, t, _, by rw [exec, hres]; rfl, ht, ?_, hstands.cancel ha hspares, ?_, ?_, ?_,
      by omega⟩
    · rw [Fair.closed_cancel]
      exact hopen
    · rw [Fair.outstanding_cancel ha h.models.chronicle hopen hr hspares, relief, hf]
      rfl
    · have herase : (a.remove j).waiting = a.waiting :=
        List.erase_of_not_mem (ha.not_mem_of_served hr hneed)
      rw [← herase]
      exact hsuffix (ha.remove j) _
    · rw [Fair.sizes_cancel, Store.get?_erase_of_ne _ (Ne.symm hspares)]
  | _ => exact hy.elim

/-- **No deadlock**: when those who do not wait give back what they have, the oldest future is
served, provided that it asks for no more than all permits together. -/
theorem can_be_served {p : ℕ} {es : List (Action W × Output)} {s : System .w64 W} {f : Acquire W}
    (hp : p ≤ Inner.maxPermits .w64) (hrun : Run BoundedStep (System.new .w64 W p) es s)
    (hq : s.sem.inner.WaitList (i :: q)) (hf : s.sem.inner.acquires.get? i = some f)
    (hsize : f.numPermits.toNat ≤ s.total) :
    ∃ fs t q', Run YieldStep s fs t ∧ t.sem.inner.WaitList q' ∧ i ∉ q' ∧ t.sem.inner.need i = 0 ∧
      t.total = s.total := by
  obtain ⟨a, h⟩ := bounded_inv toNat_le_maxPermits hp hrun
  have hwaiting : a.waiting = i :: q := (hq.unique h.models.refines.queue).symm
  have hi : i ∈ a.waiting := hwaiting ▸ List.mem_cons_self ..
  have hr := h.get? hf
  -- what is outstanding becomes less with every yield
  have key : ∃ fs t k, Run YieldStep s fs t ∧ (∃ b, Inv t b ∧ b.closed = false ∧ b.Standing i ∧
      b.outstanding i = k ∧ b.waiting <:+ i :: q ∧ b.sizes.get? i = some f.numPermits ∧
      t.total = s.total) ∧ ∀ q', t.sem.inner.WaitList q' → i ∉ q' := by
    refine Run.exists_of_less (I := fun k t => ∃ b, Inv t b ∧ b.closed = false ∧ b.Standing i ∧
      b.outstanding i = k ∧ b.waiting <:+ i :: q ∧ b.sizes.get? i = some f.numPermits ∧
      t.total = s.total) (D := fun t => ∀ q', t.sem.inner.WaitList q' → i ∉ q') ?_
      ⟨a, h, h.models.sound.open_of_mem hi, ?_, rfl, hwaiting ▸ List.suffix_rfl,
        Fair.sizes_of_get? hr, rfl⟩
    · rintro k t ⟨b, hb, hopen, hstands, hout, hsuffix, hsizes, htotal⟩
      by_cases hmem : i ∈ b.waiting
      swap
      · left
        intro q' hq' hm
        rw [hq'.unique hb.models.refines.queue] at hm
        exact hmem hm
      right
      -- the future is still the oldest one
      have hhead : b.waiting = i :: q := by
        refine (List.suffix_cons_iff.mp hsuffix).resolve_right fun hs => ?_
        have hnd := h.models.sound.nodup
        rw [hwaiting] at hnd
        exact (List.nodup_cons.mp hnd).1 (hs.subset hmem)
      obtain ⟨c, hc, hy, hspares, hamount, hpos⟩ := hb.somebody_yields hhead hsizes (by omega)
      obtain ⟨o, u, d, hres, hd, hopen', hstands', hout', hsuffix', hsizes', htotal'⟩ :=
        yield_step hb hopen hstands hc hy hspares
      have hbound := hb.bound
      have hpos' := (Fair.mem_waiting_iff hb.models.sound i).mp hmem
      refine ⟨(c, o), u, _, ⟨⟨⟨hc, hres⟩, ?_⟩, hy⟩, ⟨d, hd, hopen', hstands', rfl,
        hsuffix'.trans hsuffix, hsizes'.trans hsizes, htotal'.trans htotal⟩, by omega⟩
      show t.total + c.amount ≤ _
      omega
    · obtain ⟨r, hr', hqueued, -⟩ := h.models.sound.exists_of_mem hi
      exact ⟨r, hr', Or.inl hqueued⟩
  obtain ⟨fs, t, k, hrun', ⟨b, hb, hopen, hstands, -, -, -, htotal⟩, hdone⟩ := key
  have hlist := hb.models.refines.queue
  have hni := hdone _ hlist
  refine ⟨fs, t, b.waiting, hrun', hlist, hni, ?_, htotal⟩
  rw [← hb.models.refines.need_eq]
  exact hstands.need_eq_zero hb.models.sound hopen hni

/-- One permit is in a guard, one has been assigned to a future, and the oldest waiter asks for
both. -/
theorem can_be_served_two : ∃ (es fs : List (Action ℕ × Output)) (s t : System .w64 ℕ)
    (q q' : List Addr), Run BoundedStep (System.new .w64 ℕ 0) es s ∧ s.sem.inner.WaitList (7 :: q) ∧
      Run YieldStep s fs t ∧ t.sem.inner.WaitList q' ∧ 7 ∉ q' ∧ t.sem.inner.need 7 = 0 ∧
      t.total = s.total := by
  have hcheck : (replay System.boundedCall (System.new .w64 ℕ 0) [.acquireMany 9 1, .poll 9 6,
      .acquireMany 8 1, .poll 8 4, .acquireMany 7 2, .poll 7 5, .addPermits 2, .poll 9 6]).map
      (fun r => (r.2.sem.inner.waiters.queue.tail,
        (r.2.sem.inner.acquires.get? 7).map Acquire.numPermits, r.2.total)) =
      some (some 7, some 2, 2) := by decide +kernel
  obtain ⟨⟨es, s⟩, hres, hs⟩ := Option.map_eq_some_iff.mp hcheck
  obtain ⟨htail, hs⟩ := Prod.mk.inj hs
  obtain ⟨hf, htotal⟩ := Prod.mk.inj hs
  obtain ⟨f, hf, hnum⟩ := Option.map_eq_some_iff.mp hf
  have hrun := run_of_replay boundedStep_of_boundedCall hres
  obtain ⟨q, hq⟩ := oldest_of_tail (by decide) hrun htail
  obtain ⟨fs, t, q', hserved⟩ := can_be_served (by decide) hrun hq hf (by
    rw [hnum, htotal]
    decide)
  exact ⟨es, fs, s, t, q, q', hrun, hq, hserved⟩

end System

end LocalSync.Semaphore
