/-
  The semaphore with re-entering wakers does what the semaphore does, up to the
  first waker.

  `Agrees` relates an operation of `Inner` to the same operation with the borrow
  flags: it calls as many wakers as the former wakes, it ends in the same way
  when each of them returns at once, and wherever it calls one a given property
  holds.  Each operation has one theorem of this form, put together from those
  of its parts.

  The property here is that the wait list is borrowed.  A waker that adds a
  permit therefore panics, wherever it is called (`System.not_safe`).
-/
import LocalSync.Equiv.LinkedList
import LocalSync.Semaphore.Reentrant

namespace LocalSync.Semaphore

open Lib LinkedList

variable {P : PointerWidth} {W : Type}

/-- The semaphore that an operation leaves behind, whether it returns or panics. -/
def left {α : Type} (f : α → Inner P W) : Inner.Outcome P W α → Inner P W
  | .ok r => f r
  | .error u => u.state

/-- Between `s` and `t` no waker has been woken, and no `queued` flag has changed. -/
structure Still (s t : Inner P W) : Prop where
  woken : t.woken = s.woken
  queued : t.acquires.map Acquire.queued = s.acquires.map Acquire.queued

namespace Still

variable {s t u : Inner P W}

theorem refl (s : Inner P W) : Still s s := ⟨rfl, rfl⟩

theorem trans (h : Still s t) (h' : Still t u) : Still s u :=
  ⟨h'.woken.trans h.woken, h'.queued.trans h.queued⟩

theorem bind {α β : Type} {f : α → Inner P W} {g : β → Inner P W} {x : Inner.Outcome P W α}
    {k : α → Inner.Outcome P W β} (h : Still s (left f x))
    (hk : ∀ a, x = .ok a → Still (f a) (left g (k a))) : Still s (left g (x >>= k)) := by
  cases x with
  | error u => exact h
  | ok a => exact h.trans (hk a rfl)

theorem updateNode (s : Inner P W) (a : Addr) (f : Waiter W → Waiter W) :
    Still s (s.updateNode a f) :=
  ⟨rfl, Store.map_modify_of_invisible _ _ _ _ fun _ => rfl⟩

theorem deref (s : Inner P W) (a : Addr) : Still s (left (fun _ => s) (s.deref a)) := by
  unfold Inner.deref
  split <;> exact refl s

theorem woken_onQueue {α : Type} (s : Inner P W) (op : LinkedList → Store Addr (Acquire W) →
      Except Fault (α × LinkedList × Store Addr (Acquire W))) :
    (left Prod.snd (s.onQueue op)).woken = s.woken := by
  unfold Inner.onQueue
  split <;> rfl

/-- A queue operation that only rewrites pointers. -/
theorem onQueue {α : Type} (s : Inner P W)
    {op : LinkedList → Store Addr (Acquire W) →
      Except Fault (α × LinkedList × Store Addr (Acquire W))}
    (hop : ∀ r l h, op s.waiters.queue s.acquires = .ok (r, l, h) → SamePayload s.acquires h) :
    Still s (left Prod.snd (s.onQueue op)) := by
  unfold Inner.onQueue
  split
  · rename_i r l h hres
    exact ⟨rfl, hop r l h hres _ Acquire.queued fun _ _ => rfl⟩
  · exact refl s

theorem takeWaker (s : Inner P W) (a : Addr) : Still s (left Prod.snd (s.takeWaker a)) :=
  bind (deref s a) fun _ _ => updateNode s a fun n => { n with waker := none }

/-- The loop `'inner` only collects wakers. -/
theorem assignLoop (fuel : ℕ) (s : Inner P W) (rem : ℕ) (wakers : WakeList (Addr × W))
    (isEmpty : Bool) : Still s (left Prod.snd (Inner.assignLoop fuel s rem wakers isEmpty)) := by
  induction fuel generalizing s rem wakers isEmpty with
  | zero => exact refl s
  | succ fuel ih =>
    unfold Inner.assignLoop
    split_ifs with hpush
    swap
    · exact refl s
    split
    · exact refl s
    · exact refl s
    · rename_i a waiter hlast
      have hassign := updateNode s a fun n => (n.assignPermits rem).1
      refine hassign.trans ?_
      simp only
      split_ifs
      · exact refl _
      · refine bind (onQueue _ fun r l h hres => popBack_payload hres) ?_
        rintro ⟨o, s₂⟩ -
        cases o with
        | none => exact refl s₂
        | some node =>
          refine bind (takeWaker s₂ node) ?_
          rintro ⟨o, s₃⟩ -
          cases o with
          | none => exact ih s₃ _ _ _
          | some waker =>
            dsimp only
            cases wakers.push (node, waker) with
            | ok wakers => exact ih s₃ _ _ _
            | error fault => exact refl s₃

end Still

/-! ### Operations with and without the flags -/

section Agrees

variable {ω : Type} {Q : ω → Prop} {s : Inner P W} {α β γ δ : Type} {g : α → Inner P W} {f : α → β}
  {x : Inner.Outcome P W α} {y : (ω → Except Fault ω) → Except Fault β} {a : α} {e : Fault}
  {wake : ω → Except Fault ω}

/-- The operation `y`, with the flags and with the wakers called, does what `x` does from `s`
without them: when the wakers return at once it ends in the same way, and it calls as many as `x`
wakes, which are those that `x` adds to the log; where it calls them, `Q` holds. -/
def Agrees (Q : ω → Prop) (s : Inner P W) (g : α → Inner P W) (f : α → β)
    (x : Inner.Outcome P W α) (y : (ω → Except Fault ω) → Except Fault β) : Prop :=
  ∃ ws, Calls Q ws.length y (x.fault.map f) ∧ (left g x).woken = s.woken ++ ws

namespace Agrees

/-- An operation that wakes nobody. -/
theorem of_woken (h : (left g x).woken = s.woken) : Agrees Q s g f x fun _ => x.fault.map f :=
  ⟨[], .done _, h.trans (List.append_nil _).symm⟩

theorem of_still (h : Still s (left g x)) : Agrees Q s g f x fun _ => x.fault.map f :=
  of_woken h.woken

/-- The log is all that counts of the state at the start. -/
theorem of_eq_woken {t : Inner P W} (h : Agrees Q t g f x y) (hs : t.woken = s.woken) :
    Agrees Q s g f x y := by
  obtain ⟨ws, hy, hlog⟩ := h
  exact ⟨ws, hy, hlog.trans (congrArg (· ++ ws) hs)⟩

/-- What is done afterwards, to the program alone. -/
theorem map {γ : Type} (h : Agrees Q s g f x y) (φ : β → γ) :
    Agrees Q s g (fun a => φ (f a)) x fun wake => y wake >>= fun b => .ok (φ b) := by
  obtain ⟨ws, hy, hlog⟩ := h
  refine ⟨ws, ?_, hlog⟩
  cases x with
  | error u => exact hy.bind_error
  | ok a => exact hy.bind_ok (k := fun _ b => .ok (φ b)) (.done _)

/-- One operation after the other. -/
theorem bind {g' : γ → Inner P W} {f' : γ → δ} {k : α → Inner.Outcome P W γ}
    {k' : (ω → Except Fault ω) → β → Except Fault δ} (h : Agrees Q s g f x y)
    (hk : ∀ a, x = .ok a → Agrees Q (g a) g' f' (k a) fun wake => k' wake (f a)) :
    Agrees Q s g' f' (x >>= k) fun wake => y wake >>= k' wake := by
  obtain ⟨ws, hy, hlog⟩ := h
  cases x with
  | error u => exact ⟨ws, hy.bind_error, hlog⟩
  | ok a =>
    obtain ⟨ws', hk', hlog'⟩ := hk a rfl
    refine ⟨ws ++ ws', ?_, ?_⟩
    · rw [List.length_append]
      exact hy.bind_ok hk'
    · have hlog : (g a).woken = s.woken ++ ws := hlog
      rw [ok_bind, hlog', hlog, List.append_assoc]

/-- What is returned afterwards, on both sides. -/
theorem ret {g' : γ → Inner P W} {f' : γ → δ} (h : Agrees Q s g f x y) (φ : α → γ) (ψ : β → δ)
    (hg : ∀ a, (g' (φ a)).woken = (g a).woken) (hf : ∀ a, f' (φ a) = ψ (f a)) :
    Agrees Q s g' f' (x >>= fun a => .ok (φ a)) fun wake => y wake >>= fun b => .ok (ψ b) := by
  refine h.bind fun a _ => ?_
  have hret : Agrees Q (g a) g' f' (.ok (φ a)) fun _ => .ok (f' (φ a)) := .of_woken (hg a)
  rwa [hf] at hret

/-- What is returned afterwards without the flags, in other words than with them. -/
theorem ret_left {g' : γ → Inner P W} {f' : γ → β} (h : Agrees Q s g f x y) (φ : α → γ)
    (hg : ∀ a, (g' (φ a)).woken = (g a).woken) (hf : ∀ a, f' (φ a) = f a) :
    Agrees Q s g' f' (x >>= fun a => .ok (φ a)) y := by
  obtain ⟨ws, hy, hlog⟩ := h
  cases x with
  | error u => exact ⟨ws, hy, hlog⟩
  | ok a =>
    refine ⟨ws, ?_, (hg a).trans hlog⟩
    have hret : (Except.ok a >>= fun a => .ok (φ a) : Inner.Outcome P W γ).fault.map f' =
        .ok (f a) := congrArg Except.ok (hf a)
    rw [hret]
    exact hy

/-- **Nobody re-enters**: nobody is woken, or the wakers return at once. -/
theorem eq_ok (h : Agrees Q s g f x y) (hx : x = .ok a)
    (hw : (∀ w, Q w → wake w = .ok w) ∨ (g a).woken.length = s.woken.length) :
    y wake = .ok (f a) := by
  subst hx
  obtain ⟨ws, hy, hlog⟩ := h
  rcases hw with hidle | hquiet
  · exact hy.eq_of_idle hidle
  · have hlog : (g a).woken = s.woken ++ ws := hlog
    rw [hlog, List.length_append] at hquiet
    obtain rfl : ws = [] := List.eq_nil_of_length_eq_zero (by omega)
    exact hy.eq_of_quiet wake

/-- **The first waker decides**, where it fails. -/
theorem eq_error (h : Agrees Q s g f x y) (hne : (left g x).woken.length ≠ s.woken.length)
    (hwake : ∀ w, Q w → wake w = .error e) : y wake = .error e := by
  obtain ⟨ws, hy, hlog⟩ := h
  rw [hlog, List.length_append] at hne
  exact hy.error_of_first (by omega) hwake

/-- Wakers are only ever added to the log. -/
theorem log_append (h : Agrees Q s g f x y) (hx : x = .ok a) :
    ∃ ws, (g a).woken = s.woken ++ ws := by
  subst hx
  obtain ⟨ws, -, hlog⟩ := h
  exact ⟨ws, hlog⟩

end Agrees

end Agrees

namespace Reentrant

variable {σ : Type} [Host σ P W]

/-! ### The semaphore inside the program -/

section Inner

variable (w : World σ) (s : Inner P W)

@[simp] theorem inner_setInner : inner (setInner w s) = s := by
  show (Host.sem (Host.setSem w.state _)).inner = s
  rw [Host.sem_setSem]

@[simp] theorem setInner_setInner : setInner (setInner w s) = setInner w := by
  funext t
  show World.modify _ _ = World.modify _ _
  simp only [World.modify, setInner, Host.sem_setSem, Host.setSem_setSem]

@[simp] theorem setInner_inner : setInner w (inner w) = w := by
  show { w with state := Host.setSem w.state (Host.sem w.state) } = w
  rw [Host.setSem_sem]

@[simp] theorem inner_lock (c : Cell) : inner (w.lock c) = inner w := rfl

@[simp] theorem setInner_lock (c : Cell) : setInner (w.lock c) s = (setInner w s).lock c := rfl

end Inner

variable {Q : World σ → Prop} {w : World σ}

/-- **Calling the wakers of a batch.** -/
theorem wakeAll_calls (ws : List (Addr × W))
    (hQ : ∀ s, s.acquires = (inner w).acquires → Q (setInner w s)) :
    Calls Q ws.length (fun wake => wakeAll wake ws w)
      (.ok (setInner w ((inner w).wake ws))) := by
  induction ws generalizing w with
  | nil =>
    rw [Inner.wake, List.append_nil, setInner_inner]
    exact .done _
  | cons e ws ih =>
    have hrest := ih (w := setInner w ((inner w).wake [e])) fun s hs => by
      rw [setInner_setInner]
      exact hQ s (hs.trans (by rw [inner_setInner]; rfl))
    have hwake : (((inner w).wake [e]).wake ws) = (inner w).wake (e :: ws) := by
      simp [Inner.wake]
    rw [inner_setInner, setInner_setInner, hwake] at hrest
    exact .call (y := fun wake w => wakeAll wake ws w) (hQ ((inner w).wake [e]) rfl) hrest

/-- A batch is woken, and the operation goes on. -/
theorem wakeAll_agrees {α β : Type} {s : Inner P W} {g : α → Inner P W} {f : α → β}
    {x : Inner.Outcome P W α} {k : (World σ → Except Fault (World σ)) → World σ → Except Fault β}
    (ws : List (Addr × W)) (hstill : Still (inner w) s)
    (hQ : ∀ s, s.acquires.map Acquire.queued = (inner w).acquires.map Acquire.queued →
      Q (setInner w s))
    (hk : Agrees Q (s.wake ws) g f x fun wake => k wake (setInner w (s.wake ws))) :
    Agrees Q (inner w) g f x fun wake => wakeAll wake ws (setInner w s) >>= k wake := by
  have hcalls := wakeAll_calls (Q := Q) (w := setInner w s) ws fun t ht => by
    rw [setInner_setInner]
    rw [inner_setInner] at ht
    exact hQ t (by rw [ht, hstill.queued])
  rw [inner_setInner, setInner_setInner] at hcalls
  obtain ⟨ws', hy, hlog⟩ := hk
  refine ⟨ws ++ ws', ?_, ?_⟩
  · rw [List.length_append]
    exact hcalls.bind_ok hy
  · rw [hlog, Inner.wake, hstill.woken, List.append_assoc]

/-- **The loop of `add_permits`.** -/
theorem batchLoop_agrees (fuel rem : ℕ) (isEmpty : Bool) (hperm : .permits ∉ w.borrowed)
    (hQ : ∀ s, s.acquires.map Acquire.queued = (inner w).acquires.map Acquire.queued →
      Q (setInner w s)) :
    Agrees Q (inner w) id (setInner w)
      (Inner.batchLoop fuel (inner w) rem WakeList.new isEmpty)
      fun wake => batchLoop wake fuel w rem isEmpty := by
  induction fuel generalizing w rem isEmpty with
  | zero => exact .of_still (.refl _)
  | succ fuel ih =>
    rcases Nat.eq_zero_or_pos rem with rfl | hrem
    · have hstill : Agrees Q (inner w) id (setInner w) (.ok (inner w))
          fun _ => .ok (setInner w (inner w)) := .of_still (.refl _)
      rwa [setInner_inner] at hstill
    have hstill := Still.assignLoop ((inner w).acquires.dom.card + 1) (inner w) rem WakeList.new
      isEmpty
    simp only [Inner.batchLoop, batchLoop, gt_iff_lt, hrem, ↓reduceIte]
    cases hres : Inner.assignLoop ((inner w).acquires.dom.card + 1) (inner w) rem WakeList.new
      isEmpty with
    | error u =>
      rw [hres] at hstill
      exact .of_still hstill
    | ok r =>
      obtain ⟨⟨rem₁, wakers, isEmpty₁⟩, s⟩ := r
      rw [hres] at hstill
      -- the loop goes on after a batch
      have hloop : ∀ (s' : Inner P W) (rem' : ℕ), Still (inner w) s' →
          Agrees Q (s'.wake wakers.wakeAll) id (setInner w)
            (Inner.batchLoop fuel (s'.wake wakers.wakeAll) rem' WakeList.new isEmpty₁)
            fun wake => batchLoop wake fuel (setInner w (s'.wake wakers.wakeAll)) rem'
              isEmpty₁ := by
        intro s' rem' hstill'
        have hrest := ih (w := setInner w (s'.wake wakers.wakeAll)) rem' isEmpty₁ hperm
          fun t ht => by
            rw [setInner_setInner]
            exact hQ t (ht.trans (by rw [inner_setInner]; exact hstill'.queued))
        rwa [inner_setInner, setInner_setInner] at hrest
      simp only [Inner.fault_ok, ok_bind, inner_setInner, setInner_setInner]
      split_ifs with hrest hmax
      · -- the rest goes to the counter
        have hadd : Still (inner w)
            { s with permits := P.add s.permits (P.shl rem₁ Inner.permitShift) } :=
          ⟨hstill.woken, hstill.queued⟩
        simp only [World.touch_eq (show .permits ∉ (setInner w s).borrowed from hperm), ok_bind]
        exact wakeAll_agrees wakers.wakeAll hadd hQ (hloop _ 0 hadd)
      · exact .of_still hstill
      · exact wakeAll_agrees wakers.wakeAll hstill hQ (hloop s rem₁ hstill)

/-! ### The operations -/

/-- The cells of the semaphore are free in `w`, and where its code calls a waker, with `waiters`
borrowed, `Q` holds. -/
structure Calling (Q : World σ → Prop) (w : World σ) : Prop where
  waiters : .waiters ∉ w.borrowed
  permits : .permits ∉ w.borrowed
  wakes : ∀ s, s.acquires.map Acquire.queued = (inner w).acquires.map Acquire.queued →
    Q ((setInner w s).lock .waiters)

theorem Calling.setInner {s : Inner P W} (hc : Calling Q w)
    (hs : s.acquires.map Acquire.queued = (inner w).acquires.map Acquire.queued) :
    Calling Q (setInner w s) where
  waiters := hc.waiters
  permits := hc.permits
  wakes t ht := by
    rw [setInner_setInner]
    exact hc.wakes t (ht.trans (by rw [inner_setInner, hs]))

/-- The guard of a cell is dropped after the semaphore has changed. -/
theorem release_setInner {c : Cell} (hc : c ∉ w.borrowed) (s : Inner P W) :
    ((setInner w s).lock c).release c = setInner w s := World.release_lock hc

/-- Nothing is done. -/
theorem agrees_self : Agrees Q (inner w) id (setInner w) (.ok (inner w)) fun _ => .ok w := by
  have hstill : Agrees Q (inner w) id (setInner w) (.ok (inner w))
      fun _ => .ok (setInner w (inner w)) := .of_still (.refl _)
  rwa [setInner_inner] at hstill

/-- **`add_permits`.** -/
theorem addPermits_agrees (hc : Calling Q w) (n : ℕ) :
    Agrees Q (inner w) id (setInner w) ((inner w).addPermits n)
      fun wake => addPermits wake w n := by
  have hloop := (batchLoop_agrees (w := w.lock .waiters) ((inner w).acquires.dom.card + 2) n false
    (World.notMem_lock (by decide) hc.permits) hc.wakes).map fun w => w.release .waiters
  simp only [setInner_lock, release_setInner hc.waiters] at hloop
  simp only [addPermits, World.borrowMut_eq hc.waiters, ok_bind]
  exact hloop

/-- **`release`.** -/
theorem release_agrees (hc : Calling Q w) (n : ℕ) :
    Agrees Q (inner w) id (setInner w) ((inner w).release n) fun wake => release wake w n := by
  unfold Inner.release release
  split_ifs
  · exact agrees_self
  · exact addPermits_agrees hc n

/-- **The loop of `close`.** -/
theorem closeLoop_agrees (fuel : ℕ)
    (hQ : ∀ s, s.acquires.map Acquire.queued = (inner w).acquires.map Acquire.queued →
      Q (setInner w s)) :
    Agrees Q (inner w) id (setInner w) (Inner.closeLoop fuel (inner w))
      fun wake => closeLoop wake fuel w := by
  induction fuel generalizing w with
  | zero => exact .of_still (.refl _)
  | succ fuel ih =>
    have hpop : Still (inner w) (left Prod.snd ((inner w).onQueue LinkedList.popBack)) :=
      .onQueue _ fun r l h => popBack_payload
    simp only [Inner.closeLoop, closeLoop]
    cases hres : (inner w).onQueue LinkedList.popBack with
    | error u =>
      rw [hres] at hpop
      exact .of_still hpop
    | ok r =>
      obtain ⟨o, s⟩ := r
      rw [hres] at hpop
      cases o with
      | none => exact .of_still hpop
      | some waiter =>
        have htake := hpop.trans (Still.takeWaker s waiter)
        simp only [Inner.fault_ok, ok_bind]
        cases hres' : s.takeWaker waiter with
        | error u =>
          rw [hres'] at htake
          exact .of_still htake
        | ok r =>
          obtain ⟨o, s'⟩ := r
          rw [hres'] at htake
          -- the loop goes on after a waker
          have hloop : ∀ t : Inner P W, t.acquires.map Acquire.queued =
              (inner w).acquires.map Acquire.queued →
              Agrees Q t id (setInner w) (Inner.closeLoop fuel t)
                fun wake => closeLoop wake fuel (setInner w t) := by
            intro t ht
            have hrest := ih (w := setInner w t) fun u hu => by
              rw [setInner_setInner]
              exact hQ u (hu.trans (by rw [inner_setInner, ht]))
            rwa [inner_setInner, setInner_setInner] at hrest
          simp only [Inner.fault_ok, ok_bind]
          cases o with
          | none => exact (hloop s' htake.queued).of_eq_woken htake.woken
          | some waker => exact wakeAll_agrees [(waiter, waker)] htake hQ (hloop _ htake.queued)

/-- **`close`.** -/
theorem close_agrees (hc : Calling Q w) :
    Agrees Q (inner w) id (setInner w) (inner w).close fun wake => close wake w := by
  obtain ⟨s, hs⟩ : ∃ s : Inner P W, s = { inner w with
      permits := (inner w).permits ||| Inner.closed
      waiters := { (inner w).waiters with closed := true } } := ⟨_, rfl⟩
  have hstill : Still (inner w) s := by
    subst hs
    exact ⟨rfl, rfl⟩
  have hloop := (closeLoop_agrees (w := (setInner w s).lock .waiters) (s.acquires.dom.card + 1)
    (hc.setInner hstill.queued).wakes).map fun w => w.release .waiters
  simp only [setInner_lock, inner_lock, inner_setInner, setInner_setInner,
    release_setInner hc.waiters] at hloop
  have hclose : (fun wake => close wake w) = fun wake =>
      closeLoop wake (s.acquires.dom.card + 1) ((setInner w s).lock .waiters) >>=
        fun w => .ok (w.release .waiters) := by
    funext wake
    subst hs
    simp only [close, World.touch_eq hc.permits, ok_bind,
      World.touch_eq (w := setInner w _) hc.waiters,
      World.borrowMut_eq (w := setInner w _) hc.waiters,
      inner_setInner, setInner_setInner, inner_lock]
    rfl
  rw [hclose, Inner.close]
  subst hs
  exact hloop.of_eq_woken rfl

/-- The semaphore with its history, put back into the program. -/
def setSem (w : World σ) (x : Tracked P W) : World σ := w.modify fun t => Host.setSem t x

/-- The semaphore of the program with its history. -/
def sem (w : World σ) : Tracked P W := Host.sem w.state

theorem setHistory_setInner (s : Inner P W) (f : History W → History W) :
    setHistory (setInner w s) f = setSem w { inner := s, history := f (sem w).history } := by
  show World.modify _ _ = World.modify _ _
  simp only [World.modify, setInner, Host.sem_setSem, Host.setSem_setSem]
  rfl

@[simp] theorem setSem_setSem (x : Tracked P W) : setSem (setSem w x) = setSem w := by
  funext y
  show World.modify _ _ = World.modify _ _
  simp only [World.modify, setSem, Host.setSem_setSem]

@[simp] theorem sem_setSem (x : Tracked P W) : sem (setSem w x) = x := Host.sem_setSem _ _

@[simp] theorem inner_setSem (x : Tracked P W) : inner (setSem w x) = x.inner :=
  congrArg Tracked.inner (sem_setSem x)

/-- An operation that returns the answer `r` in the end. -/
theorem answer_agrees {γ : Type} {s : Inner P W} {x : Inner.Outcome P W (Inner P W)}
    {y : (World σ → Except Fault (World σ)) → Except Fault (World σ)}
    (h : Agrees Q s id (setInner w) x y) (r : γ) :
    Agrees Q s Prod.snd (fun p => (p.1, setInner w p.2)) (x >>= fun t => .ok (r, t))
      fun wake => y wake >>= fun w => .ok (r, w) :=
  h.ret (Prod.mk r) (Prod.mk r) (fun _ => rfl) fun _ => rfl

section Polling

variable [Waker W]

/-- **`poll_acquire`.** -/
theorem pollAcquire_agrees (hc : Calling Q w) (cx : W) (n : UInt32) (i : Addr) (queued : Bool) :
    Agrees Q (inner w) Prod.snd (fun r => (r.1, setInner w r.2))
      ((inner w).pollAcquire cx n i queued) fun wake => pollAcquire wake w cx n i queued := by
  have hderef := Still.deref (inner w) i
  simp only [Inner.pollAcquire, pollAcquire]
  cases hres : (inner w).deref i with
  | error u =>
    rw [hres] at hderef
    exact .of_still hderef
  | ok waiter =>
    simp only [Inner.fault_ok, ok_bind, World.borrowMut_eq hc.permits, inner_lock, setInner_lock,
      release_setInner hc.permits, inner_setInner, setInner_setInner, World.release_lock hc.permits]
    generalize (if queued = true then P.shl waiter.node.state Inner.permitShift
      else P.shl n.toNat Inner.permitShift) = needed
    generalize (inner w).permits >>> Inner.permitShift = permits
    have hstill : Still (inner w)
        (({ inner w with permits := 0 } : Inner P W).updateNode i fun n =>
          (n.assignPermits permits).1) := by
      have hcleared : Still (inner w) { inner w with permits := 0 } := ⟨rfl, rfl⟩
      exact hcleared.trans (.updateNode _ i _)
    split_ifs with hclosed hready hfilled hqueued
    · exact answer_agrees agrees_self _
    · exact .of_woken rfl
    · -- the waiter has been served
      have hadd := addPermits_agrees (hc.setInner hstill.queued)
        (waiter.node.assignPermits permits).2.1
      rw [inner_setInner, setInner_setInner] at hadd
      exact (answer_agrees hadd _).of_eq_woken hstill.woken
    · exact .of_woken rfl
    · -- it joins the queue
      simp only [World.touch_eq (w := setInner w _) hc.waiters, ok_bind]
      have hwoken := Still.woken_onQueue ((({ inner w with permits := 0 } : Inner P W).updateNode i
        fun n => (n.assignPermits permits).1).updateNode i (Waiter.register cx)) fun l h => do
          let r ← l.pushFront h i
          pure ((), r)
      generalize Inner.onQueue _ _ = x at hwoken
      cases x with
      | error u => exact .of_woken hwoken
      | ok r => exact .of_woken hwoken

/-- **The poll of an `Acquire`.** -/
theorem poll_agrees (hc : Calling Q w) (i : Addr) (cx : W) :
    Agrees Q (inner w) (fun r => r.2.inner) (fun r => (r.1, setSem w r.2)) ((sem w).poll i cx)
      fun wake => poll wake w i cx := by
  have hderef := Still.deref (inner w) i
  have hinner : (sem w).inner = inner w := rfl
  simp only [Tracked.poll, Inner.poll, poll, hinner]
  cases hres : (inner w).deref i with
  | error u =>
    rw [hres] at hderef
    exact .of_still hderef
  | ok q =>
    simp only [Inner.fault_ok, ok_bind, bind_assoc]
    refine (pollAcquire_agrees hc cx q.numPermits i q.queued).bind fun ⟨r, s⟩ _ => ?_
    rcases r with (e | ⟨⟨⟩⟩) | _ <;>
      simp only [pure_eq_ok, ok_bind, inner_setInner, setInner_setInner, setHistory_setInner] <;>
      exact .of_woken rfl

end Polling

/-- **The drop of an `Acquire`.** -/
theorem dropAcquire_agrees (hc : Calling Q w) (i : Addr) :
    Agrees Q (inner w) id (setInner w) ((inner w).dropAcquire i)
      fun wake => dropAcquire wake w i := by
  have hderef := Still.deref (inner w) i
  simp only [Inner.dropAcquire, dropAcquire]
  cases hres : (inner w).deref i with
  | error u =>
    rw [hres] at hderef
    exact .of_still hderef
  | ok q =>
    simp only [Inner.fault_ok, ok_bind]
    split_ifs with hqueued
    · simp only [World.touch_eq hc.waiters, ok_bind]
      have hremove : Still (inner w) (left Prod.snd ((inner w).onQueue fun l h => l.remove h i)) :=
        .onQueue _ fun r l h => remove_payload
      cases hres : (inner w).onQueue fun l h => l.remove h i with
      | error u =>
        rw [hres] at hremove
        exact .of_still hremove
      | ok r =>
        obtain ⟨o, s⟩ := r
        rw [hres] at hremove
        have hderef' := hremove.trans (Still.deref s i)
        simp only [Inner.fault_ok, ok_bind, inner_setInner]
        cases hres : s.deref i with
        | error u =>
          rw [hres] at hderef'
          exact .of_still hderef'
        | ok q' =>
          simp only [Inner.fault_ok, ok_bind]
          have hfree : ∀ {x : Inner.Outcome P W (Inner P W)}
              {y : (World σ → Except Fault (World σ)) → Except Fault (World σ)},
              Agrees Q s id (setInner w) x y → Agrees Q (inner w) id (setInner w)
                (x >>= fun s => .ok (s.free i))
                fun wake => y wake >>= fun w => .ok (setInner w ((inner w).free i)) :=
            fun hxy => (hxy.ret (fun s => s.free i) (fun w => setInner w ((inner w).free i))
              (fun _ => rfl) fun s => by rw [inner_setInner, setInner_setInner]).of_eq_woken
                hremove.woken
          split_ifs
          · have hadd := addPermits_agrees (hc.setInner hremove.queued)
              (P.sub q'.numPermits.toNat q'.node.state)
            rw [inner_setInner, setInner_setInner] at hadd
            exact hfree hadd
          · have hself := agrees_self (Q := Q) (w := setInner w s)
            rw [inner_setInner, setInner_setInner] at hself
            exact hfree hself
    · exact agrees_self.ret (fun s => s.free i) (fun w => setInner w ((inner w).free i))
        (fun _ => rfl) fun s => by rw [inner_setInner, setInner_setInner]

/-! ### With the history -/

/-- An operation that the history does not see. -/
theorem tracked_agrees {x : Inner.Outcome P W (Inner P W)}
    {y : (World σ → Except Fault (World σ)) → Except Fault (World σ)}
    (h : Agrees Q (inner w) id (setInner w) x y) :
    Agrees Q (inner w) Tracked.inner (setSem w)
      (x >>= fun s => .ok { sem w with inner := s }) y :=
  h.ret_left _ (fun _ => rfl) fun _ => rfl

/-- **`acquire(1).await`**, whatever the wakers find. -/
theorem awaitOne_agrees [Waker W] (hwait : .waiters ∉ w.borrowed) (hperm : .permits ∉ w.borrowed)
    (i : Addr) (first : Bool) (cx : W) :
    Agrees (fun _ => True) (inner w) (fun r => r.2.inner) (fun r => (r.1, setSem w r.2))
      ((sem w).awaitOne i first cx) fun wake => awaitOne wake w i first cx := by
  obtain ⟨x, hx⟩ : ∃ x, x = if first then (sem w).acquire i 1 else sem w := ⟨_, rfl⟩
  have hw : (if first = true then w.modify fun t => Host.setSem t ((Host.sem t).acquire i 1)
      else w) =
      setSem w x := by
    subst hx
    split_ifs
    · rfl
    · exact (setInner_inner w).symm
  have hwoken : x.inner.woken = (inner w).woken := by
    subst hx
    split_ifs <;> rfl
  simp only [Tracked.awaitOne, awaitOne, hw, ← hx]
  have hpoll := poll_agrees (w := setSem w x) (Q := fun _ => True)
    ⟨hwait, hperm, fun _ _ => trivial⟩
    i cx
  rw [inner_setSem, sem_setSem, setSem_setSem] at hpoll
  refine (hpoll.bind fun ⟨r, y⟩ _ => ?_).of_eq_woken hwoken
  cases r with
  | pending => exact .of_woken rfl
  | ready e =>
    have hdrop := tracked_agrees (dropAcquire_agrees (w := setSem w y) (Q := fun _ => True)
      ⟨hwait, hperm, fun _ _ => trivial⟩ i)
    rw [inner_setSem, sem_setSem, setSem_setSem] at hdrop
    exact hdrop.ret (Prod.mk (Poll.ready e)) (Prod.mk (Poll.ready e)) (fun _ => rfl) fun _ => rfl

end Reentrant

/-! ### The log -/

namespace Tracked

variable {x y : Tracked P W}

/-- The semaphore by itself, with all its cells free. -/
theorem calling_self (x : Tracked P W) : Reentrant.Calling (fun _ => True) (World.of x) :=
  ⟨Finset.notMem_empty _, Finset.notMem_empty _, fun _ _ => trivial⟩

theorem log_release {n : ℕ} (h : x.release n = .ok y) :
    ∃ ws, y.inner.woken = x.inner.woken ++ ws :=
  (Reentrant.tracked_agrees (Reentrant.release_agrees x.calling_self n)).log_append h

theorem log_close (h : x.close = .ok y) : ∃ ws, y.inner.woken = x.inner.woken ++ ws :=
  (Reentrant.tracked_agrees (Reentrant.close_agrees x.calling_self)).log_append h

theorem log_drop {i : Addr} (h : x.drop i = .ok y) : ∃ ws, y.inner.woken = x.inner.woken ++ ws :=
  (Reentrant.tracked_agrees (Reentrant.dropAcquire_agrees x.calling_self i)).log_append h

theorem log_awaitOne [Waker W] {i : Addr} {first : Bool} {cx : W}
    {r : Poll (Except AcquireError Unit)} (h : x.awaitOne i first cx = .ok (r, y)) :
    ∃ ws, y.inner.woken = x.inner.woken ++ ws :=
  (Reentrant.awaitOne_agrees (w := World.of x) (Finset.notMem_empty _) (Finset.notMem_empty _) i
    first cx).log_append h

end Tracked

/-! ### The clients -/

namespace System

open Reentrant

variable [Waker W] {s : System P W} {c : Action W}

omit [Waker W] in
/-- The code of the semaphore calls its wakers with the wait list borrowed. -/
theorem calling {w : World (System P W)} (hw : w.borrowed = ∅) :
    Calling (fun w => .waiters ∈ w.borrowed) w where
  waiters := hw ▸ Finset.notMem_empty _
  permits := hw ▸ Finset.notMem_empty _
  wakes _ _ := World.mem_lock _ _

theorem woken_tryAcquireMany (s : System P W) (n : UInt32) :
    (left (fun r => r.2.sem.inner) (s.exec (.tryAcquireMany n))).woken = s.sem.inner.woken := by
  simp only [exec, tryAcquireMany, Tracked.tryAcquire, Inner.tryAcquire]
  split_ifs <;> rfl

/-- A forgotten permit gives nothing back. -/
theorem woken_forget (s : System P W) (p : ℕ) :
    (left (fun r => r.2.sem.inner) (s.exec (.forget p))).woken = s.sem.inner.woken := by
  simp only [exec, forget, dropPermit, Store.get?_modify_self]
  cases s.permits.get? p <;> rfl

omit [Waker W] in
/-- A call that calls no waker. -/
theorem agrees_of_woken {α : Type} {Q : World (System P W) → Prop}
    {x : Inner.Outcome P W (α × System P W)}
    (h : (left (fun r => r.2.sem.inner) x).woken = s.sem.inner.woken) :
    Agrees Q s.sem.inner (fun r => r.2.sem.inner) (fun r => World.of r.2) x
      fun _ => x.fault >>= fun r => .ok (World.of r.2) := by
  cases x with
  | error u => exact .of_woken h
  | ok r => exact .of_woken h

/-- **Every call does what it does without the flags**, as long as no waker re-enters, and calls its
wakers with the wait list borrowed. -/
theorem exec_agrees (s : System P W) (c : Action W) :
    Agrees (fun w => .waiters ∈ w.borrowed) s.sem.inner (fun r => r.2.sem.inner)
      (fun r => World.of r.2) (s.exec c) fun wake => execWith wake (World.of s) c := by
  have hof : ∀ i (t : System P W), ((World.of t).hold i).letGo i = World.of t := fun i t =>
    World.letGo_hold (Finset.notMem_empty i)
  cases c with
  | addPermits n =>
    simp only [exec, addPermits, Tracked.release, bind_assoc, pure_eq_ok, ok_bind]
    exact (release_agrees (calling (w := World.of s) rfl) n).ret _ _ (fun _ => rfl) fun _ => rfl
  | acquireMany i n => exact .of_woken rfl
  | poll i cx =>
    simp only [exec, poll, execWith, World.of]
    cases hget : s.results.get? i with
    | none => exact .of_woken rfl
    | some permits =>
      simp only [bind_assoc]
      refine (poll_agrees (calling (w := (World.of s).hold i) rfl) i cx).bind ?_
      rintro ⟨r, y⟩ -
      have hret : ∀ (o : Output) (t : System P W), t.sem.inner = y.inner →
          Agrees (fun w : World (System P W) => .waiters ∈ w.borrowed) y.inner
            (fun r => r.2.sem.inner) (fun r => World.of r.2)
            (.ok (o, t) : Inner.Outcome P W (Output × System P W))
            fun _ => .ok (((World.of t).hold i).letGo i) := fun o t ht => by
        rw [hof]
        exact .of_woken (congrArg Inner.woken ht)
      rcases r with (e | ⟨⟨⟩⟩) | _
      · exact hret _ { s with sem := y } rfl
      · exact hret _ (({ s with sem := y } : System P W).grant permits).2 rfl
      · exact hret _ { s with sem := y } rfl
  | dropAcquire i =>
    simp only [exec, dropAcquire, Tracked.drop, bind_assoc, pure_eq_ok, ok_bind]
    exact (dropAcquire_agrees (calling (w := (World.of s).hold i) rfl) i).ret _ _ (fun _ => rfl)
      fun t => (hof i _).symm
  | tryAcquireMany n =>
    simp only [execWith, World.touch_eq (w := World.of s) (Finset.notMem_empty _), ok_bind]
    exact agrees_of_woken (woken_tryAcquireMany s n)
  | dropPermit p =>
    simp only [exec, dropPermit, execWith, World.of]
    cases hget : s.permits.get? p with
    | none => exact .of_woken rfl
    | some permits =>
      simp only [Tracked.release, bind_assoc, pure_eq_ok, ok_bind]
      exact (release_agrees (calling (w := World.of { s with permits := s.permits.erase p }) rfl)
        permits.toNat).ret_left _ (fun _ => rfl) fun _ => rfl
  | forget p => exact agrees_of_woken (woken_forget s p)
  | close =>
    simp only [exec, close, Tracked.close, bind_assoc, pure_eq_ok, ok_bind]
    exact (close_agrees (calling (w := World.of s) rfl)).ret_left _ (fun _ => rfl) fun _ => rfl

/-- With wakers that return at once, the system runs as it does without the flags. -/
theorem execWith_idle {o : Output} {t : System P W} (h : s.exec c = .ok (o, t)) :
    execWith .ok (World.of s) c = .ok (World.of t) :=
  (exec_agrees s c).eq_ok h (Or.inl fun _ _ => rfl)

theorem wakes_iff : s.Wakes c ↔ (left (fun r => r.2.sem.inner) (s.exec c)).woken.length ≠
    s.sem.inner.woken.length := by
  unfold Wakes
  cases s.exec c <;> exact Iff.rfl

/-- A waker that adds a permit. -/
def adding (W : Type) (_ : ℕ) : List (Action W) := [.addPermits 1]

/-- Adding a permit while the wait list is borrowed. -/
theorem wakeUp_adding {w : World (System P W)} (hw : .waiters ∈ w.borrowed) (depth : ℕ) :
    wakeUp (adding W) (depth + 1) w = .error alreadyBorrowed := by
  refine callback_of_error [] [] (a := .addPermits 1) rfl rfl ?_
  have hready : Ready w (.addPermits 1) := ⟨rfl, trivial, fun i hi => by cases hi⟩
  rw [reenter, if_pos hready, execWith, Reentrant.release, if_neg Nat.one_ne_zero,
    Reentrant.addPermits, World.borrowMut_of_mem hw]
  rfl

/-- **No call of a semaphore that wakes somebody is safe**: its waker finds the wait list
borrowed. -/
theorem not_safe (h : s.Wakes c) : ¬ s.Safe c := fun hsafe =>
  hsafe (adding W) 1 alreadyBorrowed
    ((exec_agrees s c).eq_error (wakes_iff.mp h) fun _ hw => wakeUp_adding hw 0) (Or.inl rfl)

end System

end LocalSync.Semaphore
