/-
  The bounded channel with re-entering wakers does what the channel does, up to
  the first waker.

  `Agrees` is the relation of `Equiv.Reentrant`, for the calls of a channel that
  return.  The calls that only wake sends, and the drop of a `Tx`, have one
  theorem of this form each.  A send calls the waker of the receiver last, so it
  has an equation instead (`pollSend_eq`), which holds whatever the waker does.
-/
import LocalSync.Equiv.Capacity
import LocalSync.Equiv.Reentrant
import LocalSync.Mpsc.Reentrant

namespace LocalSync.Mpsc.Bounded

open Lib
open LocalSync.Semaphore (Inner Tracked AcquireError Acquire Fair Host Slots)
open LocalSync.Semaphore.Reentrant (inner sem setSem setInner Calling)

variable {P : PointerWidth} {T W : Type}

namespace Reentrant

section Agrees

variable {Q : World (Channel P T W) → Prop} {s : Channel P T W} {α β γ δ : Type}
  {g : α → Channel P T W} {f : α → β} {x : Except Fault α}
  {y : (World (Channel P T W) → Except Fault (World (Channel P T W))) → Except Fault β} {a : α}
  {e : Fault} {wake : World (Channel P T W) → Except Fault (World (Channel P T W))}

/-- As `Semaphore.Agrees`, for the calls of a channel that return, with the wakers of both kinds. -/
def Agrees (Q : World (Channel P T W) → Prop) (s : Channel P T W) (g : α → Channel P T W)
    (f : α → β) (x : Except Fault α)
    (y : (World (Channel P T W) → Except Fault (World (Channel P T W))) → Except Fault β) : Prop :=
  ∃ n, Calls Q n y (x.map f) ∧ ∀ a, x = .ok a → (g a).wakes = s.wakes + n

namespace Agrees

/-- A call that wakes nobody. -/
theorem of_wakes (h : ∀ a, x = .ok a → (g a).wakes = s.wakes) :
    Agrees Q s g f x fun _ => x.map f := ⟨0, .done _, h⟩

/-- The same, for a call that returns `a`. -/
theorem of_ok {b : β} (hwakes : (g a).wakes = s.wakes) (hb : f a = b) :
    Agrees Q s g f (.ok a) fun _ => .ok b := by
  subst hb
  exact of_wakes fun a' ha => by
    obtain rfl := Except.ok.inj ha
    exact hwakes

/-- The number of wakers is all that counts of the state at the start. -/
theorem of_eq_wakes {t : Channel P T W} (h : Agrees Q t g f x y) (hs : t.wakes = s.wakes) :
    Agrees Q s g f x y := by
  obtain ⟨n, hy, hlen⟩ := h
  exact ⟨n, hy, fun a ha => (hlen a ha).trans (congrArg (· + n) hs)⟩

/-- One part of a call after the other. -/
theorem bind {g' : γ → Channel P T W} {f' : γ → δ} {k : α → Except Fault γ}
    {k' : (World (Channel P T W) → Except Fault (World (Channel P T W))) → β → Except Fault δ}
    (h : Agrees Q s g f x y)
    (hk : ∀ a, x = .ok a → Agrees Q (g a) g' f' (k a) fun wake => k' wake (f a)) :
    Agrees Q s g' f' (x >>= k) fun wake => y wake >>= k' wake := by
  obtain ⟨n, hy, hlen⟩ := h
  cases x with
  | error e => exact ⟨n, hy.bind_error, fun a ha => by cases ha⟩
  | ok a =>
    obtain ⟨m, hk', hlen'⟩ := hk a rfl
    refine ⟨n + m, hy.bind_ok hk', fun c hc => ?_⟩
    rw [hlen' c hc, hlen a rfl, Nat.add_assoc]

/-- A part that acts on the semaphore. -/
theorem of_semaphore {w : World (Channel P T W)} {g : α → Tracked P W} {f : α → β}
    {x : Inner.Outcome P W α}
    (h : Semaphore.Agrees Q (inner w) (fun a => (g a).inner) f x y) :
    Agrees Q w.state (fun a => Host.setSem w.state (g a)) f x.fault y := by
  obtain ⟨ws, hy, hlog⟩ := h
  refine ⟨ws.length, hy, fun a ha => ?_⟩
  cases x with
  | error u => cases ha
  | ok b =>
    obtain rfl := Except.ok.inj ha
    have hlog : (g b).inner.woken = (inner w).woken ++ ws := hlog
    show (g b).inner.woken.length + w.state.handles.chan.woken.length =
      (inner w).woken.length + w.state.handles.chan.woken.length + ws.length
    rw [hlog, List.length_append]
    omega

/-- What is returned afterwards, on both sides. -/
theorem ret {g' : γ → Channel P T W} {f' : γ → δ} (h : Agrees Q s g f x y) (φ : α → γ) (ψ : β → δ)
    (hg : ∀ a, (g' (φ a)).wakes = (g a).wakes) (hf : ∀ a, f' (φ a) = ψ (f a)) :
    Agrees Q s g' f' (x >>= fun a => .ok (φ a)) fun wake => y wake >>= fun b => .ok (ψ b) := by
  refine h.bind fun a _ => ?_
  have hret : Agrees Q (g a) g' f' (.ok (φ a)) fun _ => .ok (f' (φ a)) := .of_wakes fun b hb => by
    obtain rfl := Except.ok.inj hb
    exact hg a
  rwa [hf] at hret

/-- What is returned afterwards without the flags, in other words than with them. -/
theorem ret_left {g' : γ → Channel P T W} {f' : γ → β} (h : Agrees Q s g f x y) (φ : α → γ)
    (hg : ∀ a, (g' (φ a)).wakes = (g a).wakes) (hf : ∀ a, f' (φ a) = f a) :
    Agrees Q s g' f' (x >>= fun a => .ok (φ a)) y := by
  obtain ⟨n, hy, hlen⟩ := h
  cases x with
  | error e => exact ⟨n, hy, fun a ha => by cases ha⟩
  | ok a =>
    have hret : (Except.ok a >>= fun a => .ok (φ a) : Except Fault γ).map f' = .ok (f a) :=
      congrArg Except.ok (hf a)
    refine ⟨n, ?_, fun b hb => ?_⟩
    · rw [hret]
      exact hy
    · obtain rfl := Except.ok.inj hb
      exact (hg a).trans (hlen a rfl)

/-- **Nobody re-enters**: nobody is woken, or the wakers return at once. -/
theorem eq_ok (h : Agrees Q s g f x y) (hx : x = .ok a)
    (hw : (∀ w, Q w → wake w = .ok w) ∨ (g a).wakes = s.wakes) : y wake = .ok (f a) := by
  subst hx
  obtain ⟨n, hy, hlen⟩ := h
  have hlen := hlen a rfl
  rcases hw with hidle | hquiet
  · exact hy.eq_of_idle hidle
  · obtain rfl : n = 0 := by omega
    exact hy.eq_of_quiet wake

/-- **The first waker decides**, where it fails. -/
theorem eq_error (h : Agrees Q s g f x y) (hx : x = .ok a) (hne : (g a).wakes ≠ s.wakes)
    (hwake : ∀ w, Q w → wake w = .error e) : y wake = .error e := by
  obtain ⟨n, hy, hlen⟩ := h
  have hlen := hlen a hx
  exact hy.error_of_first (by omega) hwake

end Agrees

end Agrees

variable {Q : World (Channel P T W) → Prop} {w : World (Channel P T W)}

/-- **`add_permits`**, on the semaphore of the channel. -/
theorem release_agrees (hc : Calling Q w) (n : ℕ) :
    Agrees Q w.state (Host.setSem w.state) (setSem w) (Semaphore.addPermits (sem w) n)
      fun wake => Semaphore.Reentrant.release wake w n :=
  .of_semaphore (Semaphore.Reentrant.tracked_agrees (Semaphore.Reentrant.release_agrees hc n))

/-- **`close`**, on the semaphore of the channel. -/
theorem close_agrees (hc : Calling Q w) :
    Agrees Q w.state (Host.setSem w.state) (setSem w) (Semaphore.close (sem w))
      fun wake => Semaphore.Reentrant.close wake w :=
  .of_semaphore (Semaphore.Reentrant.tracked_agrees (Semaphore.Reentrant.close_agrees hc))

/-- **`Rx::try_recv`.** -/
theorem tryRecv_agrees [Waker W] (hfree : w.borrowed = ∅)
    (hc : ∀ queue, Calling Q (onChan (w.lock .queue) fun c => { c with queue })) :
    Agrees Q w.state Prod.snd (fun r => { w with state := r.2 })
      (w.state.exec (.call .tryRecv)) fun wake => tryRecv wake w := by
  have hqueue : Cell.queue ∉ w.borrowed := hfree ▸ Finset.notMem_empty _
  have hrelease : (w.lock .queue).release .queue = w := World.release_lock hqueue
  have hs : (w.lock .queue).state = w.state := rfl
  simp only [Channel.exec, Handles.exec, Handles.tryRecv, Chan.tryRecv, tryRecv,
    World.borrowMut_eq hqueue, ok_bind, hs, hrelease]
  split_ifs with hempty hlast
  · simp only [bind_assoc]
    cases hpop : w.state.handles.chan.queue.popUnchecked with
    | error e => exact .of_wakes fun a ha => by cases ha
    | ok r =>
      simp only [pure_eq_ok, ok_bind]
      exact (release_agrees (hc r.2) 1).ret _ _ (fun _ => rfl) fun y =>
        World.eq_release hqueue rfl rfl rfl
  · exact .of_ok rfl rfl
  · exact .of_ok rfl rfl

/-- **`Rx::recv`.** -/
theorem recv_agrees [Waker W] (hfree : w.borrowed = ∅)
    (hc : ∀ queue, Calling Q (onChan (w.lock .queue) fun c => { c with queue })) (cx : W) :
    Agrees Q w.state Prod.snd (fun r => { w with state := r.2 })
      (w.state.exec (.call (.recv cx))) fun wake => recv wake w cx := by
  have hqueue : Cell.queue ∉ w.borrowed := hfree ▸ Finset.notMem_empty _
  have hrx : Cell.rxWaker ∉ (w.lock .queue).borrowed :=
    World.notMem_lock (by decide) (hfree ▸ Finset.notMem_empty _)
  have hs : (w.lock .queue).state = w.state := rfl
  simp only [Channel.exec, Handles.exec, Handles.recv, Chan.recv, recv,
    World.borrowMut_eq hqueue, World.touch_eq hrx, ok_bind, hs]
  split_ifs with hempty hlast
  · simp only [bind_assoc]
    cases hpop : w.state.handles.chan.queue.popUnchecked with
    | error e => exact .of_wakes fun a ha => by cases ha
    | ok r =>
      simp only [pure_eq_ok, ok_bind]
      exact (release_agrees (hc r.2) 1).ret _ _ (fun _ => rfl) fun y =>
        World.eq_release hqueue rfl rfl rfl
  · exact .of_ok rfl (World.eq_release hqueue rfl rfl rfl)
  · obtain ⟨w', heq, -⟩ := w.state.handles.chan.register_eq cx
    refine .of_ok ?_ (World.eq_release hqueue rfl rfl rfl)
    show (w.state.handles.chan.register cx).semaphore.inner.woken.length +
      (w.state.handles.chan.register cx).woken.length = _
    rw [heq]
    rfl

/-- **`Rx::close`.** -/
theorem closeRx_agrees [Waker W] (hc : Calling Q w) :
    Agrees Q w.state Prod.snd (fun r => { w with state := r.2 })
      (w.state.exec (.call .close)) fun wake => Semaphore.Reentrant.close wake w := by
  simp only [Channel.exec, Handles.exec, Handles.close, Chan.close, bind_assoc, pure_eq_ok, ok_bind]
  exact (close_agrees hc).ret_left _ (fun _ => rfl) fun _ => rfl

/-- **The drop of a send**, wherever it stands. -/
theorem dropSend_agrees [Waker W] {i : Addr} (hi : i ∉ w.busy)
    (hc : Calling Q ((w.hold i).modify fun s => { s with sends := s.sends.erase i })) :
    Agrees Q w.state Prod.snd (fun r => { w with state := r.2 })
      (w.state.exec (.drop i)) fun wake => dropSend wake w i := by
  simp only [Channel.exec, Channel.dropSend, dropSend]
  cases hget : w.state.sends.get? i with
  | none => exact .of_wakes fun a ha => by cases ha
  | some f =>
    obtain ⟨tx, stage⟩ := f
    cases stage with
    | suspended v =>
      simp only [bind_assoc, pure_eq_ok, ok_bind]
      have hdrop := Agrees.of_semaphore (Semaphore.Reentrant.tracked_agrees
        (Semaphore.Reentrant.dropAcquire_agrees hc i))
      exact hdrop.ret _ _ (fun _ => rfl) fun _ => World.eq_letGo hi rfl rfl rfl
    | unresumed v => exact .of_ok rfl rfl
    | returned => exact .of_ok rfl rfl

/-- The drop of a handle wakes nobody by itself. -/
theorem releaseHandles_agrees (hqueue : .queue ∉ w.borrowed) :
    Agrees Q w.state (fun handles => { w.state with handles })
      (fun handles => onHandles w fun _ => handles) w.state.handles.release
      fun _ => releaseHandles w := by
  have hwakes : ∀ handles, w.state.handles.release = .ok handles →
      ({ w.state with handles } : Channel P T W).wakes = w.state.wakes := by
    intro handles hres
    unfold Handles.release at hres
    split_ifs at hres
    · obtain rfl := Except.ok.inj hres
      rfl
    · obtain ⟨c, hdrop, hres⟩ := bind_eq_ok.mp hres
      obtain rfl := Except.ok.inj hres
      obtain ⟨d, hdrain, hdrop⟩ := bind_eq_ok.mp hdrop
      obtain ⟨q, -, hdrop⟩ := bind_eq_ok.mp hdrop
      obtain rfl := Except.ok.inj hdrop
      obtain ⟨q, ds, rfl⟩ := Chan.drain_frame hdrain
      rfl
  have hres : releaseHandles w =
      w.state.handles.release >>= fun handles => .ok (onHandles w fun _ => handles) := by
    simp only [releaseHandles, World.touch_eq hqueue]
    split_ifs <;> rfl
  rw [hres]
  cases hrel : w.state.handles.release with
  | error e => exact .of_wakes fun a ha => by cases ha
  | ok handles => exact .of_ok (hwakes handles hrel) rfl

/-- **`Rx::drop`**, whatever the wakers find. -/
theorem dropRx_agrees [Waker W] (hfree : w.borrowed = ∅) :
    Agrees (fun _ => True) w.state Prod.snd (fun r => { w with state := r.2 })
      (w.state.exec (.call .dropRx)) fun wake => dropRx wake w := by
  have hnot := World.notMem_of_free hfree
  simp only [Channel.exec, Handles.exec, Handles.dropRx, Chan.dropRx, Chan.close, bind_assoc,
    pure_eq_ok, ok_bind, dropRx]
  refine (close_agrees ⟨hnot _, hnot _, fun _ _ => trivial⟩).bind fun y _ => ?_
  simp only [World.borrowMut_eq (w := setSem w y) (hnot .queue), ok_bind]
  obtain ⟨v, hv⟩ : ∃ v, v = setSem w y := ⟨_, rfl⟩
  have hchan : { w.state.handles.chan with semaphore := y } = v.state.handles.chan := by
    subst hv
    rfl
  have hlen : w.state.handles.chan.queue.len = v.state.handles.chan.queue.len := by
    subst hv
    rfl
  have hstart : (Host.setSem w.state y : Channel P T W) = v.state := by
    subst hv
    rfl
  have hlocked : (v.lock .queue).state = v.state := rfl
  have hb : v.borrowed = w.borrowed := hv ▸ rfl
  have hbusy : v.busy = w.busy := hv ▸ rfl
  have hlock := @World.notMem_lock_of_free _ v .queue (hb.trans hfree)
  have hhandles : w.state.handles.txs = v.state.handles.txs ∧
      w.state.handles.accepted = v.state.handles.accepted ∧
      w.state.handles.received = v.state.handles.received ∧
      w.state.handles.polled = v.state.handles.polled ∧ w.state.sends = v.state.sends := by
    subst hv
    exact ⟨rfl, rfl, rfl, rfl, rfl⟩
  obtain ⟨htxs, haccepted, hreceived, hpolled, hsends⟩ := hhandles
  simp only [hchan, hlen, hstart, hlocked, htxs, haccepted, hreceived, hpolled, hsends, ← hv]
  clear hchan hlen hstart htxs haccepted hreceived hpolled hsends
  cases hdrain : Chan.drain (v.state.handles.chan.queue.len + 1) v.state.handles.chan with
  | error e => exact .of_wakes fun a ha => by cases ha
  | ok c =>
    have hwakes : (onChan (v.lock .queue) fun _ => c).state.wakes = v.state.wakes := by
      obtain ⟨q, ds, rfl⟩ := Chan.drain_frame hdrain
      rfl
    have hrelease := release_agrees (w := onChan (v.lock .queue) fun _ => c) (Q := fun _ => True)
      ⟨hlock (by decide), hlock (by decide), fun _ _ => trivial⟩
      v.state.handles.chan.queue.len
    refine Agrees.of_eq_wakes (hrelease.bind fun z _ => ?_) hwakes
    have hlast := releaseHandles_agrees (Q := fun _ => True)
      (w := (onHandles (setSem (onChan (v.lock .queue) fun _ => c) z) fun s =>
        { s with rx := false }).release .queue) (Finset.notMem_erase _ _)
    refine hlast.ret_left (fun handles =>
      ((Answer.unit, { handles, sends := v.state.sends }) : Answer T × Channel P T W))
      (fun _ => rfl) fun handles => ?_
    exact World.eq_release (u := onHandles (setSem (onChan (v.lock .queue) fun _ => c) z)
      fun _ => handles) (hnot .queue) rfl (congrArg (insert Cell.queue) hb) hbusy

/-! ### Calls that wake the receiver -/

/-- Waking the receiver calls its waker, if there is one. -/
theorem wakeRx_eq (hrx : .rxWaker ∉ w.borrowed)
    (wake : World (Channel P T W) → Except Fault (World (Channel P T W))) :
    wakeRx wake w = if w.state.handles.chan.rxWaker.isSome then wake (onChan w Chan.wakeRx)
      else .ok (onChan w Chan.wakeRx) := by
  rw [wakeRx, World.touch_eq hrx, ok_bind]
  rfl

theorem wakes_wakeRx (w : World (Channel P T W)) :
    (onChan w Chan.wakeRx).state.wakes =
      w.state.wakes + if w.state.handles.chan.rxWaker.isSome then 1 else 0 := by
  show w.state.handles.chan.semaphore.inner.woken.length +
    (w.state.handles.chan.woken ++ w.state.handles.chan.rxWaker.toList).length = _
  rw [List.length_append]
  cases w.state.handles.chan.rxWaker <;> rfl

theorem wakeRx_eq_wakes (hrx : .rxWaker ∉ w.borrowed)
    (wake : World (Channel P T W) → Except Fault (World (Channel P T W))) :
    wakeRx wake w = if (onChan w Chan.wakeRx).state.wakes = w.state.wakes then
      .ok (onChan w Chan.wakeRx) else wake (onChan w Chan.wakeRx) := by
  rw [wakeRx_eq hrx, wakes_wakeRx]
  split_ifs <;> first | rfl | omega

/-- **Waking the receiver.** -/
theorem wakeRx_agrees (hrx : .rxWaker ∉ w.borrowed) (hQ : Q (onChan w Chan.wakeRx)) :
    Agrees Q w.state (fun _ => (onChan w Chan.wakeRx).state) (fun _ => onChan w Chan.wakeRx)
      (.ok () : Except Fault Unit) fun wake => wakeRx wake w := by
  have hwakes := wakes_wakeRx w
  by_cases hsome : w.state.handles.chan.rxWaker.isSome = true
  · refine ⟨1, ?_, fun a _ => by rw [hwakes, if_pos hsome]⟩
    have hcall : (fun wake => wakeRx wake w) = fun wake : World (Channel P T W) → _ =>
        wake (onChan w Chan.wakeRx) >>= Except.ok := by
      funext wake
      rw [wakeRx_eq hrx, if_pos hsome]
      cases wake (onChan w Chan.wakeRx) <;> rfl
    rw [hcall]
    exact .call hQ (.done _)
  · refine ⟨0, ?_, fun a _ => by rw [hwakes, if_neg hsome]⟩
    have hquiet : (fun wake => wakeRx wake w) =
        fun _ : World (Channel P T W) → _ => .ok (onChan w Chan.wakeRx) := by
      funext wake
      rw [wakeRx_eq hrx, if_neg hsome]
    rw [hquiet]
    exact .done _

/-- **`Tx::drop`**: it calls a waker only when the `Tx` is the last one, and then after it is
gone. -/
theorem dropTx_agrees [Waker W] (hfree : w.borrowed = ∅) (tx : ℕ) :
    Agrees (fun u => w.state.handles.chan.txCount = 1 ∧
        u.state.handles.txs = w.state.handles.txs.erase tx ∧ u.state.sends = w.state.sends)
      w.state Prod.snd (fun r => { w with state := r.2 })
      (w.state.exec (.call (.dropTx tx))) fun wake => dropTx wake w tx := by
  have hnot := World.notMem_of_free hfree
  simp only [Channel.exec, Handles.exec, Handles.dropTx, Chan.dropTx, bind_assoc, pure_eq_ok,
    ok_bind, dropTx]
  by_cases hzero : w.state.handles.chan.txCount = 0
  · rw [hzero]
    exact .of_wakes fun a ha => by cases ha
  rw [show (w.state.handles.chan.txCount != 0) = true from bne_iff_ne.mpr hzero, assert_true,
    ok_bind]
  -- the `Tx` has gone
  let u := onHandles w fun s =>
    { s with
      chan := { s.chan with txCount := w.state.handles.chan.txCount - 1 }
      txs := s.txs.erase tx }
  have hrelease : ∀ v : World (Channel P T W), v.borrowed = w.borrowed → v.busy = w.busy →
      v.state.sends = w.state.sends → ∀ {Q : World (Channel P T W) → Prop},
      Agrees Q v.state Prod.snd (fun r : Answer T × Channel P T W => { w with state := r.2 })
        (v.state.handles.release >>= fun handles =>
          .ok (.unit, { handles, sends := w.state.sends })) fun _ => releaseHandles v := by
    intro v hb hbusy hsends Q
    refine (releaseHandles_agrees (hb ▸ hnot .queue)).ret_left (fun handles =>
      ((Answer.unit, { handles, sends := w.state.sends }) : Answer T × Channel P T W))
      (fun handles => rfl) fun handles => ?_
    rw [← hb, ← hbusy, ← hsends]
    rfl
  by_cases hlast : w.state.handles.chan.txCount = 1
  · simp only [if_pos hlast, bind_assoc, ok_bind]
    refine (close_agrees (w := u) ⟨hnot _, hnot _, fun _ _ => ⟨hlast, rfl, rfl⟩⟩).bind fun y _ => ?_
    have hwake := wakeRx_agrees (w := setSem u y) (Q := fun v => w.state.handles.chan.txCount = 1 ∧
      v.state.handles.txs = w.state.handles.txs.erase tx ∧ v.state.sends = w.state.sends)
      (hnot .rxWaker) ⟨hlast, rfl, rfl⟩
    exact hwake.bind fun _ _ => hrelease (onChan (setSem u y) Chan.wakeRx) rfl rfl rfl
  · simp only [if_neg hlast, ok_bind]
    exact hrelease u rfl rfl rfl

/-- **`Tx::send` of `chan.rs`** calls the waker of the receiver last. -/
theorem send_eq (hfree : w.borrowed = ∅) {v : T} {r : Except SendError Unit}
    {handles : Handles (Tracked P W) T W} (h : w.state.handles.send v = .ok (r, handles))
    (wake : World (Channel P T W) → Except Fault (World (Channel P T W))) :
    send wake w v = if (onHandles w fun _ => handles).state.wakes = w.state.wakes then
      .ok (onHandles w fun _ => handles) else wake (onHandles w fun _ => handles) := by
  have hnot := World.notMem_of_free hfree
  rw [Handles.send, Chan.send] at h
  rw [send, World.read_eq (hnot .permits), ok_bind, Chan.isClosed]
  by_cases hclosed : Semaphore.isClosed w.state.handles.chan.semaphore = true
  · rw [if_pos hclosed] at h ⊢
    obtain ⟨rfl, rfl⟩ := Prod.mk.inj (Except.ok.inj h)
    exact (if_pos rfl).symm
  · rw [if_neg hclosed, bind_assoc] at h
    obtain ⟨queue, hpush, h⟩ := bind_eq_ok.mp h
    obtain ⟨rfl, rfl⟩ := Prod.mk.inj (Except.ok.inj h)
    rw [if_neg hclosed, World.touch_eq (hnot .queue), ok_bind, hpush, ok_bind]
    exact wakeRx_eq_wakes (w := onHandles w fun s =>
      { s with chan := { s.chan with queue }, accepted := s.accepted ++ [v] }) (hnot .rxWaker) wake

/-- **The body of a send**, where acquiring the slot wakes nobody: it calls the waker of the
receiver last. -/
theorem resume_eq [Waker W] (hfree : w.borrowed = ∅) {i : Addr} {tx : ℕ} {v : T} {first : Bool}
    {cx : W} {r : Poll (Except AcquireError Unit)} {y : Tracked P W}
    (hacq : (sem w).awaitOne i first cx = .ok (r, y))
    (hquiet : y.inner.woken.length = (inner w).woken.length)
    {o : Poll (Except SendError Unit)} {t : Channel P T W}
    (h : w.state.resume i tx v first cx = .ok (o, t))
    (wake : World (Channel P T W) → Except Fault (World (Channel P T W))) :
    resume wake w i tx v first cx = if t.wakes = w.state.wakes then .ok { w with state := t }
      else wake { w with state := t } := by
  have hnot := World.notMem_of_free hfree
  have hawait : Semaphore.Reentrant.awaitOne wake w i first cx = .ok (r, setSem w y) :=
    (Semaphore.Reentrant.awaitOne_agrees (hnot _) (hnot _) i first cx).eq_ok hacq (Or.inr hquiet)
  have hslot : Channel.acquireSlot w.state.handles.chan i first cx =
      .ok (r, { w.state.handles.chan with semaphore := y }) :=
    bind_eq_ok.mpr ⟨(r, y), congrArg Inner.Outcome.fault hacq, rfl⟩
  have hwakes : (setSem w y).state.wakes = w.state.wakes :=
    congrArg (· + w.state.handles.chan.woken.length) hquiet
  rw [Channel.resume, hslot, ok_bind] at h
  rw [resume, hawait, ok_bind]
  rcases r with (e | ⟨⟨⟩⟩) | _
  · obtain ⟨-, rfl⟩ := Prod.mk.inj (Except.ok.inj h)
    exact (if_pos hwakes).symm
  · obtain ⟨⟨r, handles⟩, hsend, h⟩ := bind_eq_ok.mp h
    obtain ⟨-, rfl⟩ := Prod.mk.inj (Except.ok.inj h)
    rw [← hwakes]
    exact send_eq (w := (setSem w y).modify fun s => s.setStage i tx .returned) hfree hsend wake
  · obtain ⟨-, rfl⟩ := Prod.mk.inj (Except.ok.inj h)
    exact (if_pos hwakes).symm

/-- A body that gets somewhere has awaited its slot. -/
theorem exists_awaitOne [Waker W] {s t : Channel P T W} {i : Addr} {tx : ℕ} {v : T} {first : Bool}
    {cx : W} {o : Poll (Except SendError Unit)} (h : s.resume i tx v first cx = .ok (o, t)) :
    ∃ r y, s.handles.chan.semaphore.awaitOne i first cx = .ok (r, y) := by
  obtain ⟨_, hslot, -⟩ := bind_eq_ok.mp h
  obtain ⟨⟨r, y⟩, hacq, -⟩ := bind_eq_ok.mp hslot
  exact ⟨r, y, Inner.fault_eq_ok.mp hacq⟩

/-- **The poll of a send**, where acquiring the slot wakes nobody. -/
theorem pollSend_eq [Waker W] (hfree : w.borrowed = ∅) {i : Addr} (hi : i ∉ w.busy) {cx : W}
    (hquiet : ∀ first r y, w.state.suspended i = !first → (sem w).awaitOne i first cx = .ok (r, y) →
      y.inner.woken.length = (inner w).woken.length)
    {o : Answer T} {t : Channel P T W} (h : w.state.exec (.poll i cx) = .ok (o, t))
    (wake : World (Channel P T W) → Except Fault (World (Channel P T W))) :
    pollSend wake w i cx = if t.wakes = w.state.wakes then .ok { w with state := t }
      else wake ({ w with state := t }.hold i) >>= fun u => .ok (u.letGo i) := by
  have hbody : ∀ tx v first, w.state.suspended i = !first →
      ∀ o, w.state.resume i tx v first cx = .ok (o, t) →
      (resume wake (w.hold i) i tx v first cx >>= fun u => .ok (u.letGo i)) =
        if t.wakes = w.state.wakes then .ok { w with state := t }
        else wake ({ w with state := t }.hold i) >>= fun u => .ok (u.letGo i) := by
    intro tx v first hfirst o hres
    obtain ⟨r, y, hacq⟩ := exists_awaitOne hres
    rw [resume_eq (w := w.hold i) hfree hacq (hquiet first r y hfirst hacq) hres wake]
    show (if t.wakes = w.state.wakes then _ else _) >>= _ = _
    split_ifs
    · exact congrArg Except.ok (World.eq_letGo (u := { w.hold i with state := t })
      hi rfl rfl rfl).symm
    · rfl
  obtain ⟨⟨r, t'⟩, hpoll, h⟩ := bind_eq_ok.mp h
  obtain ⟨-, rfl⟩ := Prod.mk.inj (Except.ok.inj h)
  rw [Channel.pollSend] at hpoll
  rw [pollSend]
  cases hget : w.state.sends.get? i with
  | none =>
    rw [hget] at hpoll
    cases hpoll
  | some f =>
    obtain ⟨tx, stage⟩ := f
    rw [hget] at hpoll
    cases stage with
    | unresumed v => exact hbody tx v true (by simp [Channel.suspended, hget]) r hpoll
    | suspended v => exact hbody tx v false (by simp [Channel.suspended, hget]) r hpoll
    | returned => cases hpoll

end Reentrant

end LocalSync.Mpsc.Bounded
