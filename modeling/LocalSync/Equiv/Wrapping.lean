/-
  The semaphore without a bound on its permits.

  Nothing in the code keeps the permits in circulation below the maximum: only
  the amount of a single `add_permits` is checked, and the packed counter
  wraps.  `Tracked.Follows x a` is what holds all the same: `x` refines a sound
  abstract semaphore `a` whose counter is taken modulo the width, and the wakers
  of pending polls are registered.

  Here an operation may panic.  When it returns, its result follows an abstract
  semaphore again, so that `System.Follows` holds in every state of every run
  (`run_follows`).
-/
import LocalSync.Equiv.SemaphoreSystem

namespace LocalSync.Semaphore

open Lib

variable {P : PointerWidth} {W : Type}

/-! ### What a hand-out leaves alone -/

namespace Fair

variable {a : Fair W} {i j : Addr} {n : ℕ} {q : List Addr}

/-- The requests after a hand-out: only the need and the waker of who waited have changed. -/
theorem exists_of_get?_handOut {r' : Request W}
    (h : (handOut n q a).requests.get? j = some r') :
    ∃ r, a.requests.get? j = some r ∧ r'.queued = r.queued ∧ r'.size = r.size ∧
      (j ∉ q → r' = r) := by
  induction q generalizing a n with
  | nil => exact ⟨r', h, rfl, rfl, fun _ => rfl⟩
  | cons i q ih =>
    rw [handOut] at h
    split_ifs at h
    · obtain ⟨r₁, hr₁, hqueued, hsize, heq⟩ := ih h
      obtain ⟨r, hr, rfl⟩ := Store.exists_of_get?_modify hr₁
      refine ⟨r, hr, ?_, ?_, fun hj => ?_⟩
      · rw [hqueued]
        split_ifs <;> rfl
      · rw [hsize]
        split_ifs <;> rfl
      · rw [List.mem_cons, not_or] at hj
        rw [heq hj.2, if_neg hj.1]
    · obtain ⟨r, hr, rfl⟩ := Store.exists_of_get?_modify h
      refine ⟨r, hr, ?_, ?_, fun hj => ?_⟩
      · split_ifs <;> rfl
      · split_ifs <;> rfl
      · rw [List.mem_cons, not_or] at hj
        exact if_neg hj.1

/-- Who still waits after a hand-out has kept the waker. -/
theorem waker_handOut (hq : a.waiting = q) (hnd : q.Nodup) (hj : j ∈ (handOut n q a).waiting) :
    (handOut n q a).waker j = a.waker j := by
  induction q generalizing a n with
  | nil => rfl
  | cons i q ih =>
    obtain ⟨hi, hnd⟩ := List.nodup_cons.mp hnd
    rw [handOut] at hj ⊢
    split_ifs at hj ⊢
    · have hw : (a.wakeUp i 0).waiting = q := by simp [wakeUp, hq]
      rw [ih hw hnd hj]
      have hmem : j ∈ q := hw ▸ (handOut_suffix _ _ _).subset hj
      rw [waker, waker, wakeUp, Store.get?_modify_of_ne _ _ (ne_of_mem_of_not_mem hmem hi)]
    · by_cases hji : j = i
      · subst hji
        cases hr : a.requests.get? j <;> simp [waker, topUp, hr]
      · rw [waker, waker, topUp, Store.get?_modify_of_ne _ _ hji]

/-- Wrapping touches a counter only when nobody waits. -/
theorem Sound.wrap (ha : a.Sound) (P : PointerWidth) : (a.wrap P).Sound := by
  refine ⟨ha.nodup, ha.mem_waiting, ha.need_le, fun h => ?_, ha.whole, ha.awake⟩
  show counted P a.available = 0
  rw [ha.exhausted h]
  exact Nat.zero_mod _

end Fair

/-! ### The clients -/

section Clients

variable {a b : Fair W} {h : History W} {i : Addr} {r : Request W}

theorem Clients.release (hc : Clients a h) (ha : a.Sound) (n : ℕ) : Clients (a.release n) h := by
  refine hc.congr (fun hcl => (Fair.closed_release a n).trans hcl) fun j r' hr' => ?_
  obtain ⟨r, hr, hqueued, hsize, heq⟩ := Fair.exists_of_get?_handOut hr'
  refine ⟨r, hr, hqueued, hsize, fun h0 => ?_⟩
  -- who was never polled does not wait
  rw [heq (ha.not_mem_of_not_queued hr (hc.fresh j r hr h0).1)]

theorem Clients.remove (hc : Clients a h) (i : Addr) : Clients (a.remove i) h := by
  refine hc.congr id fun j r hr => ⟨r, ?_, rfl, rfl, fun _ => rfl⟩
  rw [Fair.remove, Store.get?_erase] at hr
  split_ifs at hr
  exact hr

theorem Clients.close (hc : Clients a h) (ha : a.Sound) : Clients a.close h := by
  obtain ⟨-, -, -, -, hreq⟩ := Fair.wakeAll_spec (a := { a with closed := true }) rfl ha.nodup
  refine hc.congr (fun _ => Fair.closed_close a) fun j r' hr' => ?_
  rw [Fair.close, hreq j] at hr'
  split_ifs at hr'
  · obtain ⟨r, hr, rfl⟩ := Option.map_eq_some_iff.mp hr'
    exact ⟨r, hr, rfl, rfl, fun _ => rfl⟩
  · exact ⟨r', hr', rfl, rfl, fun _ => rfl⟩

/-- A poll, whatever it does. -/
theorem Clients.polled [Waker W] (hc : Clients a h) (hpos : 0 < h.clock)
    (hr : a.requests.get? i = some r) {cx : W} {p : Poll (Except AcquireError Unit) × Fair W}
    (hp : Fair.Polled a i cx r p) (m : ℕ) : Clients p.2 (h.poll i cx m p.1.isPending) := by
  have hid : a.requests = a.requests.modify i id :=
    (Store.modify_eq_self _ _ _ fun _ _ => rfl).symm
  cases hp with
  | closed hcl =>
    exact hc.poll (b := a) hpos hr id hid rfl cx m false nofun fun _ => Or.inr hcl
  | collected hcl hq hn =>
    exact hc.poll (b := a.collect i) hpos hr ({ · with queued := false }) rfl rfl cx m false
      nofun fun _ => Or.inl rfl
  | waiting hcl hq hn =>
    exact hc.poll (b := a.reregister i cx) hpos hr (Request.register cx) rfl rfl cx m true
      (fun _ => by simp [hq]) nofun
  | taken hcl hq hav =>
    exact hc.poll (b := a.take r.size.toNat) hpos hr id hid rfl cx m false nofun fun _ => Or.inl hq
  | enqueued hcl hq hav =>
    exact hc.poll (b := a.enqueue i cx) hpos hr _ rfl rfl cx m true (fun _ => by simp) nofun

end Clients

/-! ### The registered wakers -/

section Registered

variable [Waker W] {a b : Fair W} {h : History W} {i : Addr} {r : Request W}

/-- The waker of a pending poll is registered while the future waits. -/
def Registered (a : Fair W) (h : History W) : Prop :=
  ∀ i ∈ a.waiting, ∀ w m, (h.track i).pending = some (w, m) →
    ∃ w', a.waker i = some w' ∧ Waker.task w' = Waker.task w

/-- A step that nobody's history sees, and that leaves the wakers of those who wait alone. -/
theorem Registered.congr (hreg : Registered a h)
    (hw : ∀ i ∈ b.waiting, i ∈ a.waiting ∧ b.waker i = a.waker i) : Registered b h := by
  intro i hi w m hp
  obtain ⟨hi, hwaker⟩ := hw i hi
  rw [hwaker]
  exact hreg i hi w m hp

theorem Registered.release (hreg : Registered a h) (ha : a.Sound) (n : ℕ) :
    Registered (a.release n) h :=
  hreg.congr fun _ hi =>
    ⟨(Fair.handOut_suffix _ _ _).subset hi, Fair.waker_handOut rfl ha.nodup hi⟩

theorem Registered.remove (hreg : Registered a h) (ha : a.Sound) (i : Addr) :
    Registered (a.remove i) h :=
  hreg.congr fun j hj => by
    obtain ⟨hji, hj⟩ := ha.nodup.mem_erase_iff.mp hj
    refine ⟨hj, ?_⟩
    rw [Fair.waker, Fair.waker, Fair.remove, Store.get?_erase_of_ne _ hji]

/-- A poll of the future at `i`, which changes nothing but its request. -/
theorem Registered.poll (hreg : Registered a h) (f : Request W → Request W)
    (hreq : b.requests = a.requests.modify i f) (hw : ∀ j, j ≠ i → j ∈ b.waiting → j ∈ a.waiting)
    {cx : W} (m : ℕ) {pending : Bool} (hwaker : pending = true →
      ∃ w', b.waker i = some w' ∧ Waker.task w' = Waker.task cx) :
    Registered b (h.poll i cx m pending) := by
  intro j hj w m' hp
  by_cases hji : j = i
  · subst hji
    rw [h.track_poll_self] at hp
    dsimp only at hp
    split_ifs at hp with hpending
    obtain ⟨rfl, rfl⟩ := Prod.mk.inj (Option.some.inj hp)
    exact hwaker hpending
  · rw [h.track_poll_of_ne hji] at hp
    rw [Fair.waker, hreq, Store.get?_modify_of_ne _ _ hji]
    exact hreg j (hw j hji hj) w m' hp

/-- A poll, whatever it does. -/
theorem Registered.polled (hreg : Registered a h) (hr : a.requests.get? i = some r) {cx : W}
    {p : Poll (Except AcquireError Unit) × Fair W} (hp : Fair.Polled a i cx r p) (m : ℕ) :
    Registered p.2 (h.poll i cx m p.1.isPending) := by
  have hid : a.requests = a.requests.modify i id :=
    (Store.modify_eq_self _ _ _ fun _ _ => rfl).symm
  cases hp with
  | closed hcl =>
    exact hreg.poll (b := a) id hid (fun _ _ hj => hj) m fun hm => by cases hm
  | collected hcl hq hn =>
    exact hreg.poll (b := a.collect i) ({ · with queued := false }) rfl (fun _ _ hj => hj) m
      fun hm => by cases hm
  | waiting hcl hq hn =>
    refine hreg.poll (b := a.reregister i cx) (Request.register cx) rfl (fun _ _ hj => hj) m
      fun _ => ?_
    have hself : (a.reregister i cx).requests.get? i = some (r.register cx) := by
      simp [Fair.reregister, hr]
    rw [Fair.waker_of_get? hself]
    exact Request.waker_register cx r
  | taken hcl hq hav =>
    exact hreg.poll (b := a.take r.size.toNat) id hid (fun _ _ hj => hj) m fun hm => by cases hm
  | enqueued hcl hq hav =>
    refine hreg.poll (b := a.enqueue i cx) _ rfl (fun j hji hj => ?_) m fun _ => ?_
    · rw [Fair.enqueue, List.mem_append, List.mem_singleton] at hj
      exact hj.resolve_right hji
    · have hself : (a.enqueue i cx).requests.get? i = some
          (({ r with need := r.need - a.available, queued := true } : Request W).register cx) := by
        simp [Fair.enqueue, hr]
      rw [Fair.waker_of_get? hself]
      exact Request.waker_register cx _

end Registered

/-! ### The semaphore -/

namespace Tracked

variable [Waker W]

/-- **`x` follows the abstract semaphore `a`**, whose counter is taken modulo the width. -/
structure Follows (x : Tracked P W) (a : Fair W) : Prop where
  refines : Refines x.inner a []
  sound : a.Sound
  counter : counted P a.available = a.available
  clock_pos : 0 < x.history.clock
  clients : Clients a x.history
  registered : Registered a x.history

variable {x y : Tracked P W} {a : Fair W} {i : Addr} {r : Request W} {n : ℕ}

/-- The constructor starts with what the mask leaves. -/
theorem new_follows (P : PointerWidth) (W : Type) [Waker W] (p : ℕ) :
    Follows (Tracked.new P W p) (Fair.new W (p &&& Inner.maxPermits P)) where
  refines := by
    rw [Tracked.new, new_mask]
    exact new_spec W Nat.and_le_right
  sound := .new W _
  counter := by
    have hbound := two_mul_maxPermits P
    have hle : p &&& Inner.maxPermits P ≤ Inner.maxPermits P := Nat.and_le_right
    exact counted_of_lt (by show 2 * (p &&& Inner.maxPermits P) < _; omega)
  clock_pos := Nat.one_pos
  clients := (Chronicle.new W _).clients
  registered i hi := absurd hi (by simp [Fair.new])

namespace Follows

/-- The live futures are the live requests. -/
theorem get?_eq (h : Follows x a) (i : Addr) :
    a.requests.get? i = (x.inner.acquires.get? i).map Acquire.request := by
  rw [← h.refines.requests, Store.get?_map]

theorem acquire (h : Follows x a) (hi : a.requests.get? i = none) (n : UInt32) :
    Follows (x.acquire i n) (a.acquire i n) where
  refines := acquire_spec h.refines hi n
  sound := h.sound.acquire hi n
  counter := h.counter
  clock_pos := h.clock_pos
  clients := h.clients.acquire h.clock_pos i n
  registered j hj w m hp := by
    have hji : j ≠ i := by
      rintro rfl
      obtain ⟨r, hr, -⟩ := h.sound.exists_of_mem hj
      rw [hi] at hr
      cases hr
    rw [show (x.acquire i n).history.track j = x.history.track j from
      x.history.track_acquire_of_ne hji] at hp
    rw [Fair.waker, Fair.acquire, Store.get?_insert_of_ne _ _ hji]
    exact h.registered j hj w m hp

/-- The counter that a hand-out leaves is taken modulo the width. -/
theorem wrap {s : Inner P W} (h : Refines s (a.wrap P) []) (ha : a.Sound) {y : History W}
    (hpos : 0 < y.clock) (hc : Clients a y) (hreg : Registered a y) :
    Follows { inner := s, history := y } (a.wrap P) where
  refines := h
  sound := ha.wrap P
  counter := counted_counted P _
  clock_pos := hpos
  clients := ⟨hc.before, hc.fresh, hc.unfinished, hc.finished⟩
  registered := hreg

/-- Releasing permits, if it returns. -/
theorem release (h : Follows x a) (hres : x.release n = .ok y) :
    Follows y ((a.release n).wrap P) := by
  obtain ⟨s, hs, hres⟩ := bind_eq_ok.mp hres
  obtain rfl := Except.ok.inj hres
  rcases release_cases h.refines h.sound h.counter n with ⟨-, s', hs', hrefines⟩ | ⟨-, u, -, hs', -⟩
  · obtain rfl := Except.ok.inj (hs.symm.trans hs')
    exact wrap hrefines (h.sound.release n) h.clock_pos (h.clients.release h.sound n)
      (h.registered.release h.sound n)
  · rw [hs] at hs'
    cases hs'

/-- Trying to take permits, if it returns. -/
theorem tryAcquire (h : Follows x a) {n : UInt32} {o : Except TryAcquireError Unit}
    (hres : x.tryAcquire n = .ok (o, y)) :
    o = (a.tryAcquire n).1 ∧ Follows y (a.tryAcquire n).2 := by
  obtain ⟨⟨o', s⟩, hs, hres⟩ := bind_eq_ok.mp hres
  obtain ⟨rfl, rfl⟩ := Prod.mk.inj (Except.ok.inj hres)
  have hn : n.toNat ≤ Inner.maxPermits P := by
    by_contra hlt
    obtain ⟨u, hu⟩ := tryAcquire_error x.inner (Nat.lt_of_not_le hlt)
    rw [hs] at hu
    cases hu
  obtain ⟨s', hs', hrefines⟩ := tryAcquire_spec h.refines hn h.counter
  obtain ⟨rfl, rfl⟩ := Prod.mk.inj (Except.ok.inj (hs.symm.trans hs'))
  refine ⟨rfl, ?_⟩
  have hsound := h.sound.tryAcquire n
  unfold Fair.tryAcquire at hrefines hsound ⊢
  split_ifs at hrefines hsound ⊢
  · exact ⟨hrefines, hsound, h.counter, h.clock_pos, h.clients, h.registered⟩
  · exact ⟨hrefines, hsound, h.counter, h.clock_pos, h.clients, h.registered⟩
  · have hc := h.clients
    exact ⟨hrefines, hsound, counted_of_le h.counter (Nat.sub_le _ _), h.clock_pos,
      ⟨hc.before, hc.fresh, hc.unfinished, hc.finished⟩, h.registered⟩

/-- A future that has not returned, and not queued, needs all it asked for. -/
theorem need_eq (h : Follows x a) (hr : a.requests.get? i = some r)
    (hu : (x.history.track i).finished = false) (hq : r.queued = false) :
    r.need = r.size.toNat := by
  refine (h.clients.fresh i r hr ?_).2.1
  by_contra h0
  rw [(h.clients.unfinished i r hr (Nat.pos_of_ne_zero h0) hu).1] at hq
  cases hq

/-- Polling a future that has not returned yet, if the poll returns. -/
theorem poll (h : Follows x a) (hr : a.requests.get? i = some r)
    (hu : (x.history.track i).finished = false) {cx : W} {o : Poll (Except AcquireError Unit)}
    (hres : x.poll i cx = .ok (o, y)) :
    ∃ b, Follows y b ∧ b.closed = a.closed ∧ b.sizes = a.sizes := by
  obtain ⟨⟨o', s⟩, hs, hres⟩ := bind_eq_ok.mp hres
  obtain ⟨rfl, rfl⟩ := Prod.mk.inj (Except.ok.inj hres)
  have hnew := h.need_eq hr hu
  rcases poll_cases h.refines h.sound hr hnew h.counter cx with
    ⟨hslips, s', hs', hrefines⟩ | ⟨-, s', hs', hrefines⟩ | ⟨-, -, -, -, u, hu⟩
  · -- the request slips through: the poll takes what the counter holds for it
    obtain ⟨rfl, rfl⟩ := Prod.mk.inj (Except.ok.inj (hs.symm.trans hs'))
    have hid : a.requests = a.requests.modify i id :=
      (Store.modify_eq_self _ _ _ fun _ _ => rfl).symm
    refine ⟨_, ⟨hrefines, h.sound.take _, counted_of_le h.counter (Nat.sub_le _ _),
      Nat.succ_pos _, ?_, ?_⟩, rfl, rfl⟩
    · exact h.clients.poll (b := a.take _) h.clock_pos hr id hid rfl cx _ false nofun
        fun _ => Or.inl hslips.first
    · exact h.registered.poll (b := a.take _) id hid (fun _ _ hj => hj) _ nofun
  · obtain ⟨rfl, rfl⟩ := Prod.mk.inj (Except.ok.inj (hs.symm.trans hs'))
    have hp := Fair.polled cx hr
    refine ⟨_, ⟨hrefines, h.sound.poll hr hnew, ?_, Nat.succ_pos _,
      h.clients.polled h.clock_pos hr hp _,
      h.registered.polled hr hp _⟩, Fair.closed_poll a i cx, Fair.sizes_poll a i cx⟩
    exact counted_of_le h.counter (Fair.available_poll_le a i cx)
  · rw [hs] at hu
    cases hu

/-- Dropping a future, if the drop returns. -/
theorem drop (h : Follows x a) (hr : a.requests.get? i = some r) (hres : x.drop i = .ok y) :
    Follows y (((a.remove i).release (r.acquiredPermits P)).wrap P) := by
  obtain ⟨s, hs, hres⟩ := bind_eq_ok.mp hres
  obtain rfl := Except.ok.inj hres
  have hremove := h.sound.remove i
  rcases dropAcquire_cases h.refines h.sound hr h.counter with ⟨s', hs', hrefines⟩ | ⟨-, u, hs'⟩
  · obtain rfl := Except.ok.inj (hs.symm.trans hs')
    exact wrap hrefines (hremove.release _) h.clock_pos ((h.clients.remove i).release hremove _)
      ((h.registered.remove h.sound i).release hremove _)
  · rw [hs] at hs'
    cases hs'

/-- Closing. -/
theorem close (h : Follows x a) : ∃ y, x.close = .ok y ∧ Follows y a.close := by
  obtain ⟨s, hres, hs⟩ := close_spec h.refines h.sound
  obtain ⟨hav, -, hw, -⟩ := Fair.wakeAll_spec (a := { a with closed := true }) rfl h.sound.nodup
  change a.close.available = a.available at hav
  change a.close.waiting = [] at hw
  refine ⟨{ x with inner := s }, ?_, hs, h.sound.close, ?_, h.clock_pos,
    h.clients.close h.sound, ?_⟩
  · rw [Tracked.close, hres, ok_bind]
    rfl
  · rw [hav]
    exact h.counter
  · intro j hj
    rw [hw] at hj
    cases hj

end Follows

end Tracked

/-! ### The system -/

namespace System

variable [Waker W]

/-- **The system follows the abstract semaphore `a`.** -/
structure Follows (s : System P W) (a : Fair W) : Prop where
  sem : s.sem.Follows a
  results : s.results = a.sizes

variable {s t : System P W} {a : Fair W} {i : Addr}

/-- The request of a live future. -/
theorem Follows.exists_request (h : Follows s a)
    (hi : (s.sem.inner.acquires.get? i).isSome = true) : ∃ r, a.requests.get? i = some r := by
  obtain ⟨q, hq⟩ := Option.isSome_iff_exists.mp hi
  exact ⟨q.request, by rw [h.sem.get?_eq, hq]; rfl⟩

/-- The number of an `AcquireResult` is that of its future. -/
theorem Follows.result (h : Follows s a) {r : Request W} (hr : a.requests.get? i = some r) :
    s.results.get? i = some r.size := by
  rw [h.results]
  exact Fair.sizes_of_get? hr

/-- Dropping a permit, if the drop returns. -/
theorem Follows.dropPermit (h : Follows s a) {p : ℕ} (hres : s.dropPermit p = .ok t) :
    ∃ b, Follows t b ∧ (a.closed = true → b.closed = true) := by
  unfold System.dropPermit at hres
  cases hp : s.permits.get? p with
  | none =>
    rw [hp] at hres
    cases hres
  | some n =>
    rw [hp] at hres
    obtain ⟨x, hx, hres⟩ := bind_eq_ok.mp hres
    obtain rfl := Except.ok.inj hres
    exact ⟨_, ⟨h.sem.release hx, h.results.trans (Fair.sizes_release a _).symm⟩,
      (Fair.closed_release a _).trans⟩

/-- **One call**, if it returns: the result follows an abstract semaphore again, which is closed if
the first one was. -/
theorem Follows.step (h : Follows s a) {e : Action W × Output} (hstep : s.Step e t) :
    ∃ b, Follows t b ∧ (a.closed = true → b.closed = true) := by
  obtain ⟨c, o⟩ := e
  obtain ⟨hc, hres⟩ := hstep
  cases c with
  | addPermits n =>
    obtain ⟨u, hu, hres⟩ := bind_eq_ok.mp hres
    obtain ⟨-, rfl⟩ := Prod.mk.inj (Except.ok.inj hres)
    obtain ⟨x, hx, hu⟩ := bind_eq_ok.mp hu
    obtain rfl := Except.ok.inj hu
    exact ⟨_, ⟨h.sem.release hx, h.results.trans (Fair.sizes_release a n).symm⟩,
      (Fair.closed_release a n).trans⟩
  | acquireMany i n =>
    obtain ⟨-, rfl⟩ := Prod.mk.inj (Except.ok.inj hres)
    have hnone : a.requests.get? i = none := by
      rw [h.sem.get?_eq, show s.sem.inner.acquires.get? i = none from hc]
      rfl
    refine ⟨_, ⟨h.sem.acquire hnone n, ?_⟩, id⟩
    rw [Fair.sizes_acquire, ← h.results]
    rfl
  | poll i cx =>
    obtain ⟨⟨r, u⟩, hu, hres⟩ := bind_eq_ok.mp hres
    obtain ⟨-, rfl⟩ := Prod.mk.inj (Except.ok.inj hres)
    obtain ⟨q, hq⟩ := h.exists_request hc.1
    rw [System.poll, h.result hq] at hu
    obtain ⟨⟨o', x⟩, hx, hu⟩ := bind_eq_ok.mp hu
    obtain ⟨b, hb, hclosed, hsizes⟩ := h.sem.poll hq hc.2 hx
    have hresults : s.results = b.sizes := h.results.trans hsizes.symm
    refine ⟨b, ?_, hclosed.trans⟩
    rcases o' with (e | v) | _ <;> obtain ⟨-, rfl⟩ := Prod.mk.inj (Except.ok.inj hu) <;>
      exact ⟨hb, hresults⟩
  | dropAcquire i =>
    obtain ⟨u, hu, hres⟩ := bind_eq_ok.mp hres
    obtain ⟨-, rfl⟩ := Prod.mk.inj (Except.ok.inj hres)
    obtain ⟨x, hx, hu⟩ := bind_eq_ok.mp hu
    obtain rfl := Except.ok.inj hu
    obtain ⟨q, hq⟩ := h.exists_request hc
    refine ⟨_, ⟨h.sem.drop hq hx, ?_⟩, (Fair.closed_release (a.remove i) _).trans⟩
    show s.results.erase i = ((a.remove i).release _).sizes
    rw [Fair.sizes_release, h.results]
    exact (Store.map_erase _ _ _).symm
  | tryAcquireMany n =>
    obtain ⟨⟨r, u⟩, hu, hres⟩ := bind_eq_ok.mp hres
    obtain ⟨-, rfl⟩ := Prod.mk.inj (Except.ok.inj hres)
    obtain ⟨⟨o', x⟩, hx, hu⟩ := bind_eq_ok.mp hu
    obtain ⟨-, hb⟩ := h.sem.tryAcquire hx
    have hresults : s.results = (a.tryAcquire n).2.sizes :=
      h.results.trans (Fair.sizes_tryAcquire a n).symm
    refine ⟨_, ?_, (Fair.closed_tryAcquire a n).trans⟩
    cases o' <;> obtain ⟨-, rfl⟩ := Prod.mk.inj (Except.ok.inj hu) <;> exact ⟨hb, hresults⟩
  | dropPermit p =>
    obtain ⟨u, hu, hres⟩ := bind_eq_ok.mp hres
    obtain ⟨-, rfl⟩ := Prod.mk.inj (Except.ok.inj hres)
    exact h.dropPermit hu
  | forget p =>
    obtain ⟨u, hu, hres⟩ := bind_eq_ok.mp hres
    obtain ⟨-, rfl⟩ := Prod.mk.inj (Except.ok.inj hres)
    exact Follows.dropPermit (s := { s with
      permits := s.permits.modify p fun _ => 0
      forgotten := s.forgotten + (s.permits.get? p).elim 0 UInt32.toNat }) ⟨h.sem, h.results⟩ hu
  | close =>
    obtain ⟨u, hu, hres⟩ := bind_eq_ok.mp hres
    obtain ⟨-, rfl⟩ := Prod.mk.inj (Except.ok.inj hres)
    obtain ⟨x, hx, hu⟩ := bind_eq_ok.mp hu
    obtain rfl := Except.ok.inj hu
    obtain ⟨y, hy, hb⟩ := h.sem.close
    obtain rfl := Except.ok.inj (hx.symm.trans hy)
    exact ⟨_, ⟨hb, h.results.trans (Fair.sizes_close a).symm⟩, fun _ => Fair.closed_close a⟩

/-- **In every state of every run** the system follows an abstract semaphore. -/
theorem run_follows {p : ℕ} {es : List (Action W × Output)}
    (hrun : Run Step (System.new P W p) es t) : ∃ a, Follows t a := by
  refine hrun.invariant (I := fun t => ∃ a, Follows t a) ?_
    ⟨_, Tracked.new_follows P W p, rfl⟩
  rintro s e t ⟨a, h⟩ hstep
  obtain ⟨b, hb, -⟩ := h.step hstep
  exact ⟨b, hb⟩

end System

end LocalSync.Semaphore
